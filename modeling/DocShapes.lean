import DocShapes.File.Tree
import DocShapes.Main
import DocShapes.Proofs.Bounding
import DocShapes.Proofs.Closure
import DocShapes.Proofs.Comments
import DocShapes.Proofs.Defining
import DocShapes.Proofs.Dereferencing
import DocShapes.Proofs.Descents
import DocShapes.Proofs.Fields
import DocShapes.Proofs.Flagging
import DocShapes.Proofs.Framing
import DocShapes.Proofs.Grammar
import DocShapes.Proofs.Hexadecimal
import DocShapes.Proofs.Identity
import DocShapes.Proofs.Interchange
import DocShapes.Proofs.Ledger
import DocShapes.Proofs.Listing
import DocShapes.Proofs.Margins
import DocShapes.Proofs.Payload
import DocShapes.Proofs.Permanence
import DocShapes.Proofs.Reassembling
import DocShapes.Proofs.Rebinding
import DocShapes.Proofs.Registry
import DocShapes.Proofs.Rendering
import DocShapes.Proofs.Reordering
import DocShapes.Proofs.Rereading
import DocShapes.Proofs.Restating
import DocShapes.Proofs.Restoring
import DocShapes.Proofs.Resuming
import DocShapes.Proofs.SpellingOrder
import DocShapes.Proofs.StrictPrefix
import DocShapes.Proofs.Surviving
