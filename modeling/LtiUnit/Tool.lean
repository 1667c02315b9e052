/-!
# LtiUnit.Tool

How the tool names itself in what it writes.
-/

namespace LtiUnit

def toolName : String := "ltifmu"

def version : String := "0.1.0"

def toolAndVersion : String := toolName ++ " " ++ version

end LtiUnit
