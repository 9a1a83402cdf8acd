import PugWeave.Main
import PugWeave.Composition.Library
import PugWeave.Proofs.Path.Components
import PugWeave.Proofs.Path.Distinct
import PugWeave.Proofs.Template.Agreement
import PugWeave.Proofs.Template.Freshness
import PugWeave.Proofs.Composition.Comparison
import PugWeave.Proofs.Composition.Termination
import PugWeave.Proofs.Composition.Coherence
import PugWeave.Proofs.Composition.History
import PugWeave.Proofs.Composition.Cycles
import PugWeave.Proofs.Composition.Inheritance
import PugWeave.Proofs.Composition.Trace
import PugWeave.Proofs.Composition.Visits
import PugWeave.Proofs.Composition.Isolation
import PugWeave.Proofs.Composition.Dependence
import PugWeave.Proofs.Path.Completion
import PugWeave.Proofs.Command.Watching
import PugWeave.Proofs.Text.Blanks
import PugWeave.Proofs.Text.Occurrence
import PugWeave.Proofs.Composition.Placement
import PugWeave.Proofs.Composition.Presence
import PugWeave.Proofs.Text.Breaks
import PugWeave.Proofs.Text.FullLines
import PugWeave.Proofs.Directive.Opaque
import PugWeave.Proofs.Composition.Depth
import PugWeave.Proofs.Composition.Residue
import PugWeave.Proofs.Markup.Passing
import PugWeave.Proofs.Markup.Spots
import PugWeave.Proofs.Asset.Confinement
import PugWeave.Proofs.Asset.Strings
import PugWeave.Proofs.Asset.Sight
import PugWeave.Proofs.Asset.Rewording
import PugWeave.Proofs.Asset.Attributes
import PugWeave.Proofs.Asset.Reports
import PugWeave.Proofs.Text.Pieces
import PugWeave.Proofs.Text.Respelling
import PugWeave.Proofs.Composition.Levels
import PugWeave.Proofs.Composition.Inlining
import PugWeave.Proofs.Markup.Respacing
import PugWeave.Proofs.Markup.Rereading
import PugWeave.Proofs.Markup.Margins
import PugWeave.Proofs.Text.Reindentation
import PugWeave.Proofs.Markup.Normalization
import PugWeave.Proofs.Directive.Growth
import PugWeave.Proofs.Directive.Outline
import PugWeave.Proofs.Composition.Laws
import PugWeave.Proofs.Composition.Raising
import PugWeave.Proofs.Composition.Plain
import PugWeave.Proofs.Text.Leveling
import PugWeave.Proofs.Text.Columns
import PugWeave.Proofs.Text.Stability
import PugWeave.Proofs.Composition.Moves
import PugWeave.Proofs.Text.Replacement
import PugWeave.Proofs.Artifact.Program
import PugWeave.Proofs.Artifact.Reading
import PugWeave.Proofs.Artifact.Requirements
import PugWeave.Proofs.Artifact.Substitution
import PugWeave.Proofs.Markup.Positions
import PugWeave.Proofs.Markup.Lookahead
import PugWeave.Proofs.Markup.RawText
import PugWeave.Proofs.Markup.Listing
import PugWeave.Proofs.Markup.Gathering
import PugWeave.Proofs.Markup.Separators
import PugWeave.Proofs.Directive.Recognition
import PugWeave.Proofs.Path.Resolution
import PugWeave.Proofs.Asset.Selection
import PugWeave.Proofs.Template.Staleness
import PugWeave.Proofs.Composition.Retention
import PugWeave.Proofs.Composition.Merging
import PugWeave.Proofs.Composition.Reads
import PugWeave.Proofs.Text.Numbering
import PugWeave.Proofs.Path.References
import PugWeave.Proofs.Composition.Identity
