import ComponentEdit.Block.Basic
import ComponentEdit.Block.Source
import ComponentEdit.Buffer.Basic
import ComponentEdit.Buffer.Chunk
import ComponentEdit.Buffer.Edit
import ComponentEdit.Buffer.Provenance
import ComponentEdit.Config.Basic
import ComponentEdit.Descriptor.Basic
import ComponentEdit.Descriptor.Placement
import ComponentEdit.Descriptor.Role
import ComponentEdit.Dialect.Astro
import ComponentEdit.Dialect.Svelte
import ComponentEdit.Dialect.Vue
import ComponentEdit.Document.Basic
import ComponentEdit.Document.Parser
import ComponentEdit.Error
import ComponentEdit.Inspect
import ComponentEdit.Json.Basic
import ComponentEdit.Json.Fields
import ComponentEdit.Json.Reader
import ComponentEdit.Json.Writer
import ComponentEdit.Location
import ComponentEdit.Markup.Render
import ComponentEdit.Number.Binary64
import ComponentEdit.Number.Power
import ComponentEdit.Number.Shortest
import ComponentEdit.Proofs.Block.Anchoring
import ComponentEdit.Proofs.Block.Creation
import ComponentEdit.Proofs.Block.Hosting
import ComponentEdit.Proofs.Block.InPlace
import ComponentEdit.Proofs.Block.Properties
import ComponentEdit.Proofs.Block.Upstream
import ComponentEdit.Proofs.Buffer.Absorption
import ComponentEdit.Proofs.Buffer.ChunkMap
import ComponentEdit.Proofs.Buffer.Commutation
import ComponentEdit.Proofs.Buffer.Coverage
import ComponentEdit.Proofs.Buffer.Cuts
import ComponentEdit.Proofs.Buffer.Filing
import ComponentEdit.Proofs.Buffer.Layout
import ComponentEdit.Proofs.Buffer.Provenance
import ComponentEdit.Proofs.Buffer.Refinement
import ComponentEdit.Proofs.Buffer.Refusal
import ComponentEdit.Proofs.Buffer.Replacement
import ComponentEdit.Proofs.Buffer.Rims
import ComponentEdit.Proofs.Buffer.Seam
import ComponentEdit.Proofs.Buffer.SlotRefinement
import ComponentEdit.Proofs.Buffer.Slots
import ComponentEdit.Proofs.Buffer.Splice
import ComponentEdit.Proofs.Buffer.Tiling
import ComponentEdit.Proofs.Buffer.Trace
import ComponentEdit.Proofs.Buffer.Weave
import ComponentEdit.Proofs.Buffer.Window
import ComponentEdit.Proofs.Descriptor.Fields
import ComponentEdit.Proofs.Descriptor.Placement
import ComponentEdit.Proofs.Descriptor.RoundTrip
import ComponentEdit.Proofs.Dialect.Astro
import ComponentEdit.Proofs.Dialect.AstroMarkup
import ComponentEdit.Proofs.Dialect.Svelte
import ComponentEdit.Proofs.Dialect.Vue
import ComponentEdit.Proofs.Document.Parsing
import ComponentEdit.Proofs.Json.Objects
import ComponentEdit.Proofs.Json.Reading
import ComponentEdit.Proofs.Markup.Attributes
import ComponentEdit.Proofs.Markup.Fields
import ComponentEdit.Proofs.Session.Anchoring
import ComponentEdit.Proofs.Session.Atomicity
import ComponentEdit.Proofs.Session.Interleaving
import ComponentEdit.Proofs.Session.Rejection
import ComponentEdit.Proofs.SourceMap.Decoding
import ComponentEdit.Proofs.SourceMap.Exactness
import ComponentEdit.Proofs.SourceMap.Fidelity
import ComponentEdit.Proofs.SourceMap.LineTokens
import ComponentEdit.Proofs.SourceMap.Naming
import ComponentEdit.Proofs.SourceMap.Quantities
import ComponentEdit.Proofs.SourceMap.Resolution
import ComponentEdit.Proofs.SourceMap.Walk
import ComponentEdit.Proofs.Text.Carets
import ComponentEdit.Proofs.Text.Encoding
import ComponentEdit.Proofs.Text.LineSearch
import ComponentEdit.Proofs.Text.Locations
import ComponentEdit.Proofs.Text.Matches
import ComponentEdit.Proofs.Text.Offsets
import ComponentEdit.Proofs.Text.Search
import ComponentEdit.Session.Basic
import ComponentEdit.SourceMap.Basic
import ComponentEdit.SourceMap.Token
import ComponentEdit.SourceMap.Vlq
import ComponentEdit.Text.Basic
import ComponentEdit.Text.Hidden
import ComponentEdit.Text.Lines
import ComponentEdit.Text.Quoted
import ComponentEdit.Text.Search
import ComponentEdit.Toml.Document
import ComponentEdit.Toml.Quoted
import ComponentEdit.Toml.Reader
import ComponentEdit.Toml.Scalar
import ComponentEdit.Toml.Value
