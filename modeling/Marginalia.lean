import Marginalia.Color.Chain
import Marginalia.Color.Serial
import Marginalia.Main
import Marginalia.Proofs.Checklist.Lines
import Marginalia.Proofs.Color.Strict
import Marginalia.Proofs.Console.Session
import Marginalia.Proofs.Console.Stream
import Marginalia.Proofs.Project.FixedPoint
import Marginalia.Proofs.Project.Frame
import Marginalia.Proofs.Project.Outside
import Marginalia.Proofs.Scan.Excluded
import Marginalia.Proofs.Tag.Leftmost
import Marginalia.Proofs.Tag.Reread
import Marginalia.Proofs.Tag.LineEnd
import Marginalia.Proofs.Text.Parts
import Marginalia.Proofs.Scan.Local
import Marginalia.Proofs.Checklist.Kinds
import Marginalia.Proofs.Project.Lookback
import Marginalia.Proofs.Project.Bytes
import Marginalia.Proofs.Tag.Line
import Marginalia.Proofs.Tag.Case
import Marginalia.Proofs.Checklist.Repeats
import Marginalia.Proofs.Scan.Broken
import Marginalia.Proofs.Color.Lenient
import Marginalia.Proofs.Console.Muted
import Marginalia.Proofs.Console.Record
import Marginalia.Proofs.Color.RoundTrip
import Marginalia.Proofs.Binary32.Remainder
import Marginalia.Proofs.Binary32.Zeros
import Marginalia.Proofs.Color.Turn
import Marginalia.Proofs.Color.Gray
import Marginalia.Proofs.Color.Capacity
import Marginalia.Proofs.Color.Chain
import Marginalia.Proofs.Files.ReadBack
import Marginalia.Proofs.Color.Serial
import Marginalia.Proofs.Console.Timeless
import Marginalia.Proofs.Command.Palette
