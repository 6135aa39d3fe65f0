import WordCalc.Main
import WordCalc.Proofs.Arithmetic
import WordCalc.Proofs.Atomicity
import WordCalc.Proofs.BeginMark
import WordCalc.Proofs.Bounds
import WordCalc.Proofs.Depth
import WordCalc.Proofs.Dictionary.Flattening
import WordCalc.Proofs.Dictionary.Independence
import WordCalc.Proofs.Dictionary.Insertion
import WordCalc.Proofs.Dictionary.LateBinding
import WordCalc.Proofs.Dictionary.Order
import WordCalc.Proofs.Dictionary.Reach
import WordCalc.Proofs.Dictionary.Rebuild
import WordCalc.Proofs.Dictionary.Recording
import WordCalc.Proofs.Dictionary.Rewriting
import WordCalc.Proofs.History
import WordCalc.Proofs.InPlace
import WordCalc.Proofs.Journal
import WordCalc.Proofs.LateBinding
import WordCalc.Proofs.Limit
import WordCalc.Proofs.LineBreak
import WordCalc.Proofs.Literals
import WordCalc.Proofs.Locality
import WordCalc.Proofs.Noninterference
import WordCalc.Proofs.Reachable
import WordCalc.Proofs.Reload
import WordCalc.Proofs.Reloadable
import WordCalc.Proofs.Replay
import WordCalc.Proofs.Rounds
import WordCalc.Proofs.Runs
import WordCalc.Proofs.Sources
import WordCalc.Proofs.Splicing
import WordCalc.Proofs.StackEffect
import WordCalc.Proofs.Termination
import WordCalc.Proofs.Text.Encoding
import WordCalc.Proofs.Text.Lines
import WordCalc.Proofs.Text.Words
import WordCalc.Proofs.Trail
import WordCalc.Proofs.ZeroCheck
import WordCalc.Text.Uppercase.Laws
