import Sigil.Anchor
import Sigil.Ascii
import Sigil.BitRange
import Sigil.Bits
import Sigil.Buffer
import Sigil.ByteSet
import Sigil.Catalog
import Sigil.Census
import Sigil.Config
import Sigil.Config.Reader
import Sigil.Content
import Sigil.DataFormat
import Sigil.Digest
import Sigil.Domain
import Sigil.FileType
import Sigil.Hit
import Sigil.Kind
import Sigil.Literal
import Sigil.MatchMode
import Sigil.Matcher
import Sigil.Offset
import Sigil.Path
import Sigil.PatternError
import Sigil.Pool.Basic
import Sigil.Pool.Build
import Sigil.Pool.Canonical
import Sigil.Pool.Lifetime
import Sigil.Pool.Refresh
import Sigil.Pool.Unfold
import Sigil.Random
import Sigil.Registry
import Sigil.Repeat
import Sigil.Starts
import Sigil.Subject
import Sigil.Summary
import Sigil.Text.Escaped
import Sigil.Text.Quoted
import Sigil.Toml.Document
import Sigil.Toml.Scalar
import Sigil.Toml.Value
import Sigil.Tree
import Sigil.Tree.Diagram
import Sigil.Tree.Generality
import Sigil.Tree.Match
import Sigil.Tree.Measure
import Sigil.Tree.Sample
import Sigil.Tree.SelfCheck
import Sigil.Proofs.Bits
import Sigil.Proofs.Buffer
import Sigil.Proofs.Fold
import Sigil.Proofs.Language
import Sigil.Proofs.Lengths
import Sigil.Proofs.FirstBytes
import Sigil.Proofs.DerivationTrees
import Sigil.Proofs.Numbers
import Sigil.Proofs.Counting
import Sigil.Proofs.Plain
import Sigil.Proofs.Matching
import Sigil.Proofs.Acyclic
import Sigil.Proofs.Storage
import Sigil.Proofs.Pool.Views
import Sigil.Proofs.Pool.Graph
import Sigil.Proofs.Pool.WellFormed
import Sigil.Proofs.Pool.Growth
import Sigil.Proofs.Pool.Refresh
import Sigil.Proofs.Pool.Rewiring
import Sigil.Proofs.Pool.Lifetime
import Sigil.Proofs.Meaning
import Sigil.Proofs.Rules
import Sigil.Proofs.Pool.Interning
import Sigil.Proofs.Pool.Simplify
import Sigil.Proofs.Pool.Canonical
import Sigil.Proofs.Pool.Command
import Sigil.Proofs.Pool.Matching
import Sigil.Proofs.Pool.Lengths
import Sigil.Proofs.Limit
import Sigil.Proofs.Excerpt
import Sigil.Proofs.Complexity
import Sigil.Proofs.Constant
import Sigil.Proofs.Steady
import Sigil.Proofs.GeneralityRules
import Sigil.Proofs.Generality
import Sigil.Proofs.Content
import Sigil.Proofs.Pool.FullMode
import Sigil.Proofs.Pool.Pruning
import Sigil.Proofs.Pool.Generality
import Sigil.Proofs.Pool.Alike
import Sigil.Proofs.Pool.Worklist
import Sigil.Proofs.Pool.Migration
import Sigil.Proofs.Pool.Coherence
import Sigil.Proofs.Pool.Splice
import Sigil.Proofs.Derivation
import Sigil.Proofs.Pool.Equality
import Sigil.Proofs.Pool.HashConsing
import Sigil.Proofs.Containment
import Sigil.Proofs.Pool.Hits
import Sigil.Proofs.Bounded
import Sigil.Proofs.Inclusion
import Sigil.Proofs.Pool.Inclusion
import Sigil.Proofs.Success
import Sigil.Proofs.Registry.Holders
import Sigil.Proofs.Registry.Registration
import Sigil.Proofs.Registry.Canonical
import Sigil.Proofs.Registry.Recognition
import Sigil.Proofs.Registry.Actions
import Sigil.Proofs.Pool.Complexity
import Sigil.Proofs.Pool.Sweep
import Sigil.Proofs.Registry.Accounting
import Sigil.Proofs.Pool.Failure
import Sigil.Proofs.ByteMatchers
import Sigil.Proofs.Pool.Detection
import Sigil.Proofs.Registry.Order
import Sigil.Proofs.Pool.Purity
import Sigil.Proofs.Pool.Edits
import Sigil.Proofs.Pool.Steps
import Sigil.Proofs.Pool.Contexts
import Sigil.Proofs.Pool.Irreducible
import Sigil.Proofs.Pool.Resolution
import Sigil.Proofs.Pool.NormalForms
import Sigil.Proofs.Random
import Sigil.Proofs.Generation
import Sigil.Proofs.Pool.Random
import Sigil.Proofs.Pool.FirstBytes
import Sigil.Proofs.Pool.SelfCheck
import Sigil.Proofs.Pool.Constant
import Sigil.Proofs.Pool.Release
import Sigil.Proofs.Nullable
import Sigil.Proofs.Pool.Nullable
import Sigil.Proofs.Builtins
import Sigil.Proofs.Pool.Builtins
import Sigil.Proofs.Short
import Sigil.Proofs.ByteStrings
import Sigil.Proofs.Pool.Making
import Sigil.Proofs.Pool.Anchored
import Sigil.Proofs.Pool.RandomGrowth
import Sigil.Proofs.Registry.Adoption
import Sigil.Proofs.Registry.Headers
import Sigil.Proofs.Registry.Catalog
import Sigil.Proofs.Registry.Failure
