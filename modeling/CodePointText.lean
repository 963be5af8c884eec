import CodePointText.Main
import CodePointText.Script
import CodePointText.Proofs.Utf8.Boundary
import CodePointText.Proofs.Utf8.Order
import CodePointText.Proofs.Occurrence.Position
import CodePointText.Proofs.Occurrence.Rounds
import CodePointText.Proofs.Occurrence.Packing
import CodePointText.Proofs.Occurrence
import CodePointText.Proofs.Result
import CodePointText.Proofs.Slice
import CodePointText.Proofs.Text.Storage
import CodePointText.Proofs.Text.Index
import CodePointText.Proofs.Text.Slice
import CodePointText.Proofs.Text.Search
import CodePointText.Proofs.Text.Find
import CodePointText.Proofs.Text.Count
import CodePointText.Proofs.Text.Replace
import CodePointText.Proofs.Text.Build
import CodePointText.Proofs.Text.Same
import CodePointText.Proofs.Iteration
import CodePointText.Proofs.Iteration.Interleaving
import CodePointText.Proofs.Comparison
import CodePointText.Proofs.Hashing
import CodePointText.Proofs.Hashing.Substitution
import CodePointText.Proofs.Method
import CodePointText.Proofs.Operand
import CodePointText.Proofs.Reachability
import CodePointText.Proofs.Script.Build
import CodePointText.Proofs.Script.Independence
import CodePointText.Proofs.Literal
import CodePointText.Proofs.Text.Ascii
import CodePointText.Proofs.Script.Ascii
import CodePointText.Proofs.Dispatch
import CodePointText.Proofs.Operand.Grammar
import CodePointText.Proofs.Operand.Written
import CodePointText.Proofs.Sequence.Scan
import CodePointText.Proofs.Sequence.Reads
import CodePointText.Proofs.Sequence.Laws
import CodePointText.Proofs.Command
import CodePointText.Proofs.Serial.Json
import CodePointText.Proofs.Serial
import CodePointText.Proofs.Reply
import CodePointText.Proofs.Slice.Partition
import CodePointText.Proofs.Text.Concat
import CodePointText.Proofs.Text.Item
import CodePointText.Proofs.Text.Reassembly
import CodePointText.Proofs.Text.Replicate
import CodePointText.Proofs.Text.Overflow
import CodePointText.Proofs.Text.PadRight
import CodePointText.Proofs.Text.ZeroPad
