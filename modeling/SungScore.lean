import SungScore.Main
import SungScore.Proofs.Breath
import SungScore.Proofs.Lyrics
import SungScore.Proofs.Words
import SungScore.Proofs.Joining
import SungScore.Proofs.Melody.Token
import SungScore.Proofs.Melody.Voice
import SungScore.Proofs.SideBySide
import SungScore.Proofs.Engine.Merge
import SungScore.Proofs.Engine.Conservation
import SungScore.Proofs.Engine.Invariant
import SungScore.Proofs.Engine.Likeness
import SungScore.Proofs.Segment.Basic
import SungScore.Proofs.Segment.Cues
import SungScore.Proofs.Segment.Phrase
import SungScore.Proofs.Segment.Place
import SungScore.Proofs.Segment.Part
import SungScore.Proofs.Engine.ClosedForm
import SungScore.Proofs.Score.Lines
import SungScore.Proofs.Score.Segments
import SungScore.Proofs.Score.Reading
import SungScore.Proofs.Score.Pragma
import SungScore.Proofs.Score.VowelTime
import SungScore.Proofs.Score.Alike
import SungScore.Proofs.Score.Joined
import SungScore.Proofs.Score.KeyRange
import SungScore.Proofs.Score.Heard
import SungScore.Proofs.Score.Letters
import SungScore.Proofs.Text.Decimal
import SungScore.Proofs.Record
import SungScore.Proofs.Exact.Basic
import SungScore.Proofs.Exact.Phrase
import SungScore.Proofs.Engine.Exact
import SungScore.Proofs.Engine.Blame
import SungScore.Proofs.Score.Blame
import SungScore.Proofs.Score.Renumbered
import SungScore.Proofs.Text.Written
import SungScore.Proofs.Score.Interspersed
import SungScore.Proofs.Score.Transposed
import SungScore.Proofs.Score.Alternation
import SungScore.Proofs.Setting
import SungScore.Proofs.Melody.Grammar
import SungScore.Proofs.Melody.Arrangement
import SungScore.Proofs.Syllable
import SungScore.Proofs.Melody.Duration
import SungScore.Proofs.Config
import SungScore.Proofs.Score.Change
import SungScore.Proofs.Melody.Fault
import SungScore.Proofs.CommandLine.Files
import SungScore.Proofs.CommandLine.Delivery
