import FragmentAssembly.Header.Lemmas
import FragmentAssembly.Main
import FragmentAssembly.Registry.Reachable
import FragmentAssembly.Resolution.Recursive
import FragmentAssembly.Session
import FragmentAssembly.Spread.Lemmas
import FragmentAssembly.Proofs.Resolution.Recursion
import FragmentAssembly.Proofs.Resolution.Coverage
import FragmentAssembly.Proofs.Operation.SelfContained
import FragmentAssembly.Proofs.Registry.Adding
import FragmentAssembly.Proofs.Registry.Counters
import FragmentAssembly.Proofs.Registry.History
import FragmentAssembly.Proofs.Registry.NewNames
import FragmentAssembly.Proofs.Registry.Refusals
import FragmentAssembly.Proofs.Operation.Locality
import FragmentAssembly.Proofs.Registry.Alike
import FragmentAssembly.Proofs.Operation.Interpolation
import FragmentAssembly.Proofs.Registry.Rearranging
import FragmentAssembly.Proofs.Files.Spelling
import FragmentAssembly.Proofs.Command.Discovery
import FragmentAssembly.Proofs.Command.Build
import FragmentAssembly.Proofs.Spread.Places
import FragmentAssembly.Proofs.Registry.OwnText
import FragmentAssembly.Proofs.Command.Written
import FragmentAssembly.Proofs.Command.JsonFlag
import FragmentAssembly.Proofs.Command.JsonOutput
import FragmentAssembly.Proofs.Header.Places
import FragmentAssembly.Proofs.Spread.Template
import FragmentAssembly.Proofs.Header.Appending
import FragmentAssembly.Proofs.Registry.LeadingHeader
import FragmentAssembly.Proofs.Registry.LeadingLines
import FragmentAssembly.Proofs.Resolution.Closure
import FragmentAssembly.Proofs.Operation.Settings
import FragmentAssembly.Proofs.Operation.ReadBack
import FragmentAssembly.Proofs.Command.WantedFiles
import FragmentAssembly.Proofs.Registry.TrailingBlanks
import FragmentAssembly.Proofs.Command.VariableForms
import FragmentAssembly.Proofs.Resolution.Budget
import FragmentAssembly.Proofs.Registry.NumberSearch
import FragmentAssembly.Proofs.Searches
