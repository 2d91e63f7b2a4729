import Unseal.CommandLine.Answer
import Unseal.Main
import Unseal.Proofs.ClassFile.ChecksPass
import Unseal.Proofs.ClassFile.Edited
import Unseal.Proofs.ClassFile.InnerEntries
import Unseal.Proofs.ClassFile.Lengths
import Unseal.Proofs.ClassFile.StripReport
import Unseal.Proofs.ClassFile.Truncation
import Unseal.Proofs.CommandLine.WrittenRun
import Unseal.Proofs.Discovery.Exact
import Unseal.Proofs.Run.AnyOrder
import Unseal.Proofs.Run.SecondRun
import Unseal.Proofs.Selection.Canonical
import Unseal.Proofs.Selection.Monotone
import Unseal.Proofs.Selection.RulesText
import Unseal.Proofs.Selection.Segments
import Unseal.Proofs.Text.ModifiedUtf8
import Unseal.Run.Basic
import Unseal.Run.Roots
