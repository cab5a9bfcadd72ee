import ClassDocs.Autoload
import ClassDocs.Batch
import ClassDocs.Builder
import ClassDocs.Builder.Workbench
import ClassDocs.Command.Arguments
import ClassDocs.Command.Run
import ClassDocs.Config.Basic
import ClassDocs.Config.Layer
import ClassDocs.Decl
import ClassDocs.Disk
import ClassDocs.Docblock.Basic
import ClassDocs.Docblock.Cache
import ClassDocs.Docblock.Reader
import ClassDocs.Failure
import ClassDocs.Ignore.Glob
import ClassDocs.Ignore.Rule
import ClassDocs.Index.Basic
import ClassDocs.Index.Core
import ClassDocs.Index.Flatten
import ClassDocs.Inherit
import ClassDocs.Issue
import ClassDocs.JsonValue.Basic
import ClassDocs.JsonValue.Printer
import ClassDocs.JsonValue.Reader
import ClassDocs.Link
import ClassDocs.Main
import ClassDocs.Name.Basic
import ClassDocs.Name.Scope
import ClassDocs.Path
import ClassDocs.Project.Discover
import ClassDocs.Project.Run
import ClassDocs.Source.Comment
import ClassDocs.Source.Declaration
import ClassDocs.Source.Hint
import ClassDocs.Source.Import
import ClassDocs.Source.Node
import ClassDocs.Source.Reader
import ClassDocs.Source.Token
import ClassDocs.Source.Tree
import ClassDocs.Table
import ClassDocs.Text.Blank
import ClassDocs.Text.Capital
import ClassDocs.Text.Fold
import ClassDocs.Text.Letter
import ClassDocs.Text.Measure
import ClassDocs.Toml.Basic
import ClassDocs.Toml.Reader
import ClassDocs.TypeExpr.Basic
import ClassDocs.TypeExpr.Printer
import ClassDocs.TypeExpr.Reader
import ClassDocs.TypeExpr.Token
import ClassDocs.TypeRef.Basic
import ClassDocs.TypeRef.Unify
import ClassDocs.TypeRef.Vocabulary
import ClassDocs.View.Assemble
import ClassDocs.View.Basic
import ClassDocs.View.Inclusion
import ClassDocs.View.Json
import ClassDocs.Proofs.Climb
import ClassDocs.Proofs.Coherence
import ClassDocs.Proofs.Assembly
import ClassDocs.Proofs.Memo
import ClassDocs.Proofs.ParsedOnce
import ClassDocs.Proofs.WorkInProgress
import ClassDocs.Proofs.BatchOrder
import ClassDocs.Proofs.Precedence
import ClassDocs.Proofs.Provenance
import ClassDocs.Proofs.Distinct
import ClassDocs.Proofs.Closure
import ClassDocs.Proofs.PlainSearch
import ClassDocs.Proofs.Reindex
import ClassDocs.Proofs.LastContent
import ClassDocs.Proofs.Missing
import ClassDocs.Proofs.Layers
import ClassDocs.Proofs.CanonicalType
import ClassDocs.Proofs.TypeLocality
import ClassDocs.Proofs.TypePrefix
import ClassDocs.Proofs.TypedTags
import ClassDocs.Proofs.TypeRoundTrip
import ClassDocs.Proofs.TypeChoice
import ClassDocs.Proofs.Nullability
import ClassDocs.Proofs.BareNull
import ClassDocs.Proofs.NullFold
import ClassDocs.Proofs.ClassUnions
import ClassDocs.Proofs.ClassReference
import ClassDocs.Proofs.TokensAlone
import ClassDocs.Proofs.PagePaths
import ClassDocs.Proofs.DiskWrites
import ClassDocs.Proofs.LocalLinks
import ClassDocs.Proofs.BatchComplete
import ClassDocs.Proofs.WrittenPages
import ClassDocs.Proofs.TagSections
import ClassDocs.Proofs.FreeText
import ClassDocs.Proofs.TypeEnd
import ClassDocs.Proofs.ParamTags
import ClassDocs.Proofs.TokenSpans
import ClassDocs.Proofs.TreeSpans
import ClassDocs.Proofs.InitialText
import ClassDocs.Proofs.ItemSpans
import ClassDocs.Proofs.Initializers
import ClassDocs.Proofs.InheritChain
import ClassDocs.Proofs.BareMarkers
import ClassDocs.Proofs.CollectedIssues
import ClassDocs.Proofs.Lineage
import ClassDocs.Proofs.LinkSpelling
import ClassDocs.Proofs.NativeTypes
import ClassDocs.Proofs.NearestComment
import ClassDocs.Proofs.ShownMethods
import ClassDocs.Proofs.MostSpecific
import ClassDocs.Proofs.ImportedNames
import ClassDocs.Proofs.NullPlaces
import ClassDocs.Proofs.WellFormedTypes
import ClassDocs.Proofs.WholeSegments
import ClassDocs.Proofs.NestingDepth
import ClassDocs.Proofs.TypeErrors
