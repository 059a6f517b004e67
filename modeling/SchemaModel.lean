import SchemaModel.Main
import SchemaModel.Proofs.OrderIndependence
import SchemaModel.Proofs.Integrity
import SchemaModel.Proofs.DefaultTypes
import SchemaModel.Proofs.Hierarchy.Cycles
import SchemaModel.Proofs.Resolve.Memory
import SchemaModel.Proofs.Hierarchy.Linear
import SchemaModel.Proofs.Resolve.Identity
import SchemaModel.Proofs.Resolve.Recall
import SchemaModel.Proofs.Resolve.Session
import SchemaModel.Proofs.Resolve.Renaming
import SchemaModel.Proofs.Selection
import SchemaModel.Proofs.Overrides
import SchemaModel.Proofs.Resolve.Conflict
import SchemaModel.Proofs.Resolve.AliasChain
import SchemaModel.Proofs.Resolve.Inlined
import SchemaModel.Proofs.Resolve.Extension
import SchemaModel.Proofs.Wrapping
import SchemaModel.Proofs.Resolve.ComponentType
import SchemaModel.Proofs.Resolve.Kinds
import SchemaModel.Proofs.Forest
import SchemaModel.Proofs.NullSafety
import SchemaModel.Proofs.Accounting
import SchemaModel.Proofs.Resolve.Termination
import SchemaModel.Proofs.Subtypes
import SchemaModel.Proofs.Options
import SchemaModel.Proofs.Resolve.Declarations
import SchemaModel.Proofs.Resolve.Redeclared
import SchemaModel.Proofs.Resolve.Suffixes
import SchemaModel.Proofs.Resolve.AliasEnds
import SchemaModel.Proofs.Resolve.Bounds
import SchemaModel.Proofs.Resolve.Wrappers
import SchemaModel.Proofs.Defaults
import SchemaModel.Proofs.StringLiteral
import SchemaModel.Proofs.Resolve.TypeCycles
import SchemaModel.Proofs.Resolve.AllOfCycles
import SchemaModel.Proofs.Resolve.TextKeys
import SchemaModel.Proofs.DateText
import SchemaModel.Proofs.FloatingLiteral
import SchemaModel.Proofs.Shortest
import SchemaModel.Proofs.Document.Reading
import SchemaModel.Proofs.ReferenceText
import SchemaModel.Proofs.Resolve.InlineNames
