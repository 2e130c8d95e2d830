import Juggling.Curve.Draft
import Juggling.Session
import Juggling.Main
import Juggling.Proofs.Roundtrip
import Juggling.Proofs.PropMotion
import Juggling.Proofs.Arranged
import Juggling.Proofs.Protocol
import Juggling.Proofs.Sufficient
import Juggling.Proofs.Lossless
import Juggling.Proofs.Canonical
import Juggling.Proofs.PacedPattern
import Juggling.Proofs.ReorderedPattern
import Juggling.Proofs.Coverage
import Juggling.Proofs.Interpolation
import Juggling.Proofs.Enclosure
import Juggling.Proofs.Reachable
import Juggling.Proofs.Laws
import Juggling.Proofs.Action
import Juggling.Proofs.Bouncing
import Juggling.Proofs.Poses
import Juggling.Proofs.Reread
import Juggling.Proofs.Elimination
import Juggling.Proofs.Tracks
import Juggling.Proofs.Indices
