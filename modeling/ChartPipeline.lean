import ChartPipeline.Compile
import ChartPipeline.Scale
import ChartPipeline.CommandLine
import ChartPipeline.Main
import ChartPipeline.Proofs.Assembly.Conservation
import ChartPipeline.Proofs.Assembly.Optimized
import ChartPipeline.Proofs.Compile.Provenance
import ChartPipeline.Proofs.Session.Required
import ChartPipeline.Proofs.Compile.Coercions
import ChartPipeline.Proofs.Compile.Names
import ChartPipeline.Proofs.Compile.Readers
import ChartPipeline.Proofs.Compile.Failure
import ChartPipeline.Proofs.Session.Invariant
import ChartPipeline.Proofs.Scale.Literal
import ChartPipeline.Proofs.Compile.Scales
import ChartPipeline.Proofs.Session.Sources
import ChartPipeline.Proofs.Graph.History
import ChartPipeline.Proofs.Node.Positive
import ChartPipeline.Proofs.Compile.Facets
import ChartPipeline.Proofs.Chart.Shorthand
import ChartPipeline.Proofs.Graph.Keeping
import ChartPipeline.Proofs.Graph.Settling
import ChartPipeline.Proofs.Graph.Detaching
import ChartPipeline.Proofs.Assembly.Placement
import ChartPipeline.Proofs.Assembly.Freshness
import ChartPipeline.Proofs.Assembly.Worklist
import ChartPipeline.Proofs.Node.Columns
import ChartPipeline.Proofs.Node.Requests
import ChartPipeline.Proofs.Expression.Quotation
import ChartPipeline.Proofs.Node.Blocks
import ChartPipeline.Proofs.Node.Merging
