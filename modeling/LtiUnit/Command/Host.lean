import LtiUnit.Toolchain

/-!
# LtiUnit.Command.Host

What a command finds where it is run, apart from the files.
-/

namespace LtiUnit
namespace Command

structure Host where
  platform : Except PlatformError Platform
  environment : String → Option String
  start : Toolchain.Starter
  /-- What the command draws if it renders a unit. -/
  occasion : Occasion

end Command
end LtiUnit
