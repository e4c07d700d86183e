import GateTrace.Config.Read
import GateTrace.Extraction
import GateTrace.Proofs.CallResults
import GateTrace.Proofs.Chain
import GateTrace.Proofs.Faithful
import GateTrace.Proofs.FieldShapes
import GateTrace.Proofs.FileNames
import GateTrace.Proofs.GraphText
import GateTrace.Proofs.Hierarchy
import GateTrace.Proofs.Interruption
import GateTrace.Proofs.NormalForm
import GateTrace.Proofs.OperandText
import GateTrace.Proofs.Ragged
import GateTrace.Proofs.Results
import GateTrace.Proofs.Tally
import GateTrace.Proofs.TypedCalls
import GateTrace.Proofs.WholeValues
import GateTrace.Script.Session
