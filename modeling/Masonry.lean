import Masonry.Scalar
import Masonry.Scalar.Binary
import Masonry.Scalar.Exact
import Masonry.Space.Vector
import Masonry.Space.Box
import Masonry.Space.Ray
import Masonry.Space.Grid
import Masonry.Shape
import Masonry.Shape.Token
import Masonry.Shape.Reading
import Masonry.Catalog
import Masonry.Catalog.Reading
import Masonry.Shape.Triangles
import Masonry.Color
import Masonry.Stone
import Masonry.Model
import Masonry.Model.Cursor
import Masonry.Model.Selection
import Masonry.Files
import Masonry.Save.Fault
import Masonry.Save.Bytes
import Masonry.Save.Archive
import Masonry.Save.Document
import Masonry.Plan.Run
import Masonry.Plan
import Masonry.Scene.Matrix
import Masonry.Scene
import Masonry.Json
import Masonry.Settings
import Masonry.Session
import Masonry.Text.Digits
import Masonry.Text.Hundredths
import Masonry.Palette
import Masonry.Report
import Masonry.Main
import Masonry.Proofs.Model.Placing
import Masonry.Proofs.Model.Rearranging
import Masonry.Proofs.Model.Separation
import Masonry.Proofs.Model.Identity
import Masonry.Proofs.Save.Loading
import Masonry.Proofs.Session.Effect
import Masonry.Proofs.Session.Stones
import Masonry.Proofs.Save.ArchiveInversion
import Masonry.Proofs.Save.Replay
import Masonry.Proofs.Save.Reloading
import Masonry.Proofs.Model.Editing
import Masonry.Proofs.Save.RoundTrip
import Masonry.Proofs.Save.Acceptance
import Masonry.Proofs.Session.Preview
import Masonry.Proofs.Plan.Run
import Masonry.Proofs.Plan.Mirror
import Masonry.Proofs.Shape.Grammar
import Masonry.Proofs.Shape.Reads
import Masonry.Proofs.Shape.Values
import Masonry.Proofs.Shape.Statements
import Masonry.Proofs.Catalog.Descriptions
import Masonry.Proofs.Model.Lineage
import Masonry.Proofs.Session.Click
import Masonry.Proofs.Session.Edits
import Masonry.Proofs.Session.Groups
import Masonry.Proofs.Save.Saved
import Masonry.Proofs.Session.InsertIds
import Masonry.Proofs.Model.Groups
import Masonry.Proofs.Model.Constancy
import Masonry.Proofs.Session.Constancy
import Masonry.Proofs.Shape.Joining
import Masonry.Proofs.Catalog.Continuing
import Masonry.Proofs.Shape.Lookahead
import Masonry.Proofs.Catalog.Abort
import Masonry.Proofs.Shape.Braces
import Masonry.Proofs.Catalog.Copying
import Masonry.Proofs.Catalog.Inlining
import Masonry.Proofs.Shape.Layout
import Masonry.Proofs.Catalog.Ids
import Masonry.Proofs.Catalog.Regular
import Masonry.Proofs.Scene.Cache
import Masonry.Proofs.Space.Ray
import Masonry.Proofs.Model.Level
import Masonry.Proofs.Session.Level
import Masonry.Proofs.Plan.Spacing
import Masonry.Proofs.Plan.Fitting
import Masonry.Proofs.Plan.Courses
import Masonry.Proofs.Plan.Bond
import Masonry.Proofs.Plan.Moving
import Masonry.Proofs.Plan.Layers
import Masonry.Proofs.Plan.Sides
import Masonry.Proofs.Plan.Coverage
import Masonry.Proofs.Model.Batch
import Masonry.Proofs.Session.Commits
import Masonry.Proofs.Save.Replacing
import Masonry.Proofs.Space.Shift
import Masonry.Proofs.Model.Moving
import Masonry.Proofs.Shape.Literals
import Masonry.Proofs.Shape.Order
import Masonry.Proofs.Shape.Reports
import Masonry.Proofs.Catalog.Reports
import Masonry.Proofs.Shape.Triangles
import Masonry.Proofs.Scalar.Order
import Masonry.Proofs.Space.Nearest
import Masonry.Proofs.Model.Picking
import Masonry.Proofs.Model.Looking
import Masonry.Proofs.Save.Room
import Masonry.Proofs.Space.Bounding
import Masonry.Proofs.Scene.Drawing
import Masonry.Proofs.Plan.Rounds
import Masonry.Proofs.Model.Thickness
import Masonry.Proofs.Json.Parts
import Masonry.Proofs.Json.RoundTrip
import Masonry.Proofs.Settings.Members
