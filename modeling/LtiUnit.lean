import LtiUnit.Machine.Start
import LtiUnit.Main
import LtiUnit.Proofs.Agreement
import LtiUnit.Proofs.Assembly
import LtiUnit.Proofs.BuildSteps
import LtiUnit.Proofs.BuildTrace
import LtiUnit.Proofs.ClosedUnit
import LtiUnit.Proofs.CompilerPaths
import LtiUnit.Proofs.Completion
import LtiUnit.Proofs.ConcurrentBuilds
import LtiUnit.Proofs.Controller
import LtiUnit.Proofs.DescriptorText
import LtiUnit.Proofs.FactoredForm
import LtiUnit.Proofs.FloatingConstant
import LtiUnit.Proofs.FrontChecks
import LtiUnit.Proofs.Integration
import LtiUnit.Proofs.Landing
import LtiUnit.Proofs.ListOptions
import LtiUnit.Proofs.Listings
import LtiUnit.Proofs.NearestConfig
import LtiUnit.Proofs.PackedUnit
import LtiUnit.Proofs.Preview
import LtiUnit.Proofs.ProbedCompiler
import LtiUnit.Proofs.Progress
import LtiUnit.Proofs.Routes
import LtiUnit.Proofs.SettingLayers
import LtiUnit.Proofs.SingleInput
import LtiUnit.Proofs.SourceContents
import LtiUnit.Proofs.StartValues
import LtiUnit.Proofs.StatedOccasion
import LtiUnit.Proofs.Timestamp
import LtiUnit.Proofs.TransferFunction
import LtiUnit.Proofs.WrittenDescription
