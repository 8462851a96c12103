import Clvm.Benchmark.Measure
import Clvm.Benchmark.Trend
import Clvm.Benchmark.Validate
import Clvm.Build.Package
import Clvm.Curry
import Clvm.Main
import Clvm.Node.Writer
import Clvm.Pattern
import Clvm.Report.Html
import Clvm.Proofs.Machine.Exec
import Clvm.Proofs.Machine.Meaning
import Clvm.Proofs.Machine.Value
import Clvm.Proofs.Bytes
import Clvm.Proofs.Path
import Clvm.Proofs.Curry
import Clvm.Proofs.Action
import Clvm.Proofs.Compiler.Core
import Clvm.Proofs.Optimizer.Passes
import Clvm.Proofs.Optimizer.Substitution
import Clvm.Proofs.Optimizer.Faithful
import Clvm.Proofs.Compiler.Record
import Clvm.Proofs.Optimizer.Limits
import Clvm.Proofs.Assembler
import Clvm.Proofs.Node.Reader
import Clvm.Proofs.Compiler.Order
import Clvm.Proofs.Compiler.Places
import Clvm.Proofs.Compiler.Balance
import Clvm.Proofs.Machine.Trace
import Clvm.Proofs.Node.RoundTrip
import Clvm.Proofs.Machine.Strict
import Clvm.Proofs.Machine.Avoid
import Clvm.Proofs.Numbering
import Clvm.Proofs.Optimizer.Beta
import Clvm.Proofs.Optimizer.Local
import Clvm.Proofs.Optimizer.Normal
import Clvm.Proofs.Pattern
import Clvm.Proofs.Forgetting
import Clvm.Proofs.Compiler.Parameters
import Clvm.Proofs.Compiler.Fuel
import Clvm.Proofs.Compiler.Template
import Clvm.Proofs.Compiler.Quasi
import Clvm.Proofs.Compiler.Nesting
import Clvm.Proofs.Compiler.Reachable
import Clvm.Proofs.Node.Coverage
import Clvm.Proofs.Compiler.Linking
import Clvm.Proofs.Compiler.ListMacro
import Clvm.Proofs.Node.Locality
import Clvm.Proofs.Random.Program
import Clvm.Proofs.Compiler.Lowering
import Clvm.Proofs.Compiler.Inline
import Clvm.Proofs.TreeHash
import Clvm.Proofs.Command.Pairing
import Clvm.Proofs.Walk
import Clvm.Proofs.Build
import Clvm.Proofs.Compiler.Inclusion
import Clvm.Proofs.Compiler.Names
