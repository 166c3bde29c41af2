import Reckon.Proofs.Window.Session
import Reckon.Proofs.Builtin.Extreme
import Reckon.Proofs.Display.Minimal
import Reckon.Proofs.Display.Source
import Reckon.Proofs.Listing.Line
import Reckon.Proofs.Listing.Orderly
import Reckon.Proofs.Names.Binding
import Reckon.Proofs.Names.First
import Reckon.Proofs.Names.Replaced
import Reckon.Proofs.Sample
import Reckon.Proofs.Simple.Agreement
import Reckon.Proofs.Token.Point
import Reckon.Proofs.Walk.Value
import Reckon.Proofs.Window.Clearing
import Reckon.Proofs.Window.Insertion
import Reckon.Proofs.Window.SimpleField
