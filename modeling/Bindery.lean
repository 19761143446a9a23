import Bindery.Decl.Parser
import Bindery.Reader.Decl
import Bindery.Instance
import Bindery.Log
import Bindery.Lowering.Basic
import Bindery.Lowering.Transform
import Bindery.Mode
import Bindery.Path
import Bindery.Target
import Bindery.Failure
import Bindery.Host.Basic
import Bindery.Emission
import Bindery.Generation
import Bindery.Annotation.Scan
import Bindery.Staging.BuildScript
import Bindery.Staging.Merge
import Bindery.Staging.Promote
import Bindery.Digest
import Bindery.Sources
import Bindery.Staging.Basic
import Bindery.Compilation
import Bindery.Ownership
import Bindery.View
import Bindery.Workers
import Bindery.Proofs.Digest.Fields
import Bindery.Proofs.Path.Names
import Bindery.Proofs.Path.Parts
import Bindery.Proofs.World.Act
import Bindery.Proofs.World.Place
import Bindery.Proofs.World.Tree
import Bindery.Proofs.Staging.Assemble
import Bindery.Proofs.Build.Key
import Bindery.Proofs.Cache.Line
import Bindery.Proofs.World.Frame
import Bindery.Proofs.Staging.Names
import Bindery.Proofs.Staging.Frame
import Bindery.Proofs.Build.Honest
import Bindery.Proofs.Build.History
import Bindery.Proofs.Build.Current
import Bindery.Proofs.Syntax.Spelling
import Bindery.Proofs.Ty.Spelling
import Bindery.Proofs.Ty.Reading
import Bindery.Proofs.Decl.Spelling
import Bindery.Proofs.Decl.Attributes
import Bindery.Proofs.Decl.Signatures
import Bindery.Proofs.Decl.Handles
import Bindery.Proofs.Decl.Records
import Bindery.Proofs.Decl.Printable
import Bindery.Proofs.Decl.RoundTrip
import Bindery.Proofs.Syntax.Passage
import Bindery.Proofs.Syntax.Reads
import Bindery.Proofs.Ty.Fits
import Bindery.Proofs.Decl.Checked
import Bindery.Proofs.Decl.Sound
import Bindery.Proofs.Ty.Named
import Bindery.Proofs.Ty.Closed
import Bindery.Proofs.Lowering.Closed
import Bindery.Proofs.Decl.Instances
import Bindery.Proofs.Text.Lines
import Bindery.Proofs.Annotation.Cursor
import Bindery.Proofs.Annotation.Found
import Bindery.Proofs.Annotation.Places
import Bindery.Proofs.Emission.Run
import Bindery.Proofs.Emission.Gain
import Bindery.Proofs.Emission.Blocks
import Bindery.Proofs.Emission.Mirror
import Bindery.Proofs.Emission.Inventory
import Bindery.Proofs.Lowering.Slots
import Bindery.Proofs.Header.Calls
import Bindery.Proofs.World.Writes
import Bindery.Proofs.Compilation.Generate
import Bindery.Proofs.Compilation.Scan
import Bindery.Proofs.Compilation.Inventory
import Bindery.Proofs.Compilation.Symbols
import Bindery.Proofs.Annotation.Token
import Bindery.Proofs.Annotation.Passing
import Bindery.Proofs.Annotation.Sites
import Bindery.Proofs.Annotation.Unit
import Bindery.Proofs.Annotation.Units
import Bindery.Proofs.World.Listing
import Bindery.Proofs.World.Ready
import Bindery.Proofs.World.Repeat
import Bindery.Proofs.World.Laid
import Bindery.Proofs.Staging.Written
import Bindery.Proofs.Staging.Closed
import Bindery.Proofs.Header.Captures
import Bindery.Proofs.Staging.Afresh
import Bindery.Proofs.Compilation.Failing
import Bindery.Proofs.Compilation.FileNames
import Bindery.Proofs.Build.Fresh
import Bindery.Proofs.Compilation.Apart
import Bindery.Proofs.Emission.Boundary
import Bindery.Proofs.Ownership.Ledger
import Bindery.Proofs.Compilation.Unfinished
import Bindery.Proofs.Annotation.Includes
import Bindery.Proofs.Build.Again
import Bindery.Proofs.Compilation.Again
import Bindery.Proofs.View.Crossing
import Bindery.Proofs.Lowering.Names
import Bindery.Proofs.Emission.Params
import Bindery.Proofs.Syntax.Literal
import Bindery.Proofs.Ty.Grammar
import Bindery.Proofs.Ty.Derivation
import Bindery.Proofs.Decl.Enumerators
import Bindery.Proofs.Decl.Words
import Bindery.Proofs.Annotation.Fragment
import Bindery.Proofs.Decl.Layout
import Bindery.Proofs.Decl.Statements
import Bindery.Proofs.Reader.Decl
import Bindery.Proofs.Merge.Blocks
import Bindery.Proofs.Promote.Declarations
import Bindery.Proofs.Lowering.Forms
import Bindery.Proofs.Lowering.Arrays
import Bindery.Proofs.Lowering.Transform
import Bindery.Proofs.Header.LowLevel
import Bindery.Proofs.Header.Containers
import Bindery.Proofs.Cache.Entries
import Bindery.Proofs.Emission.Order
import Bindery.Proofs.Compilation.Walk
import Bindery.Proofs.Build.Command
import Bindery.Proofs.Workers.Setting
import Bindery.Proofs.Linkage.Lists
import Bindery.Proofs.Reader.Lookahead
