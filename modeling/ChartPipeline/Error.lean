import ChartPipeline.Json.Printer

/-!
# Errors

Why a chart is not compiled, and what is said about it.
-/

namespace ChartPipeline

/-- Nodes are numbered in the order in which they were added. -/
abbrev NodeId := Nat

def nodeText (id : NodeId) : String := "NodeId(" ++ Nat.repr id ++ ")"

/-- What is wrong with a chart spec whose members all have a proper shape. -/
inductive SpecError where
  | facetWithoutChannels (model : String)
  | facetWithoutInner (model : String)
  | unitWithoutMark (model : String)
  | rootIsNoSource (node : NodeId)
  | noSourceAbove (checkpoint : NodeId)
deriving DecidableEq, Repr

def SpecError.message : SpecError → String
  | .facetWithoutChannels model => "facet '" ++ model ++ "' declares neither row nor column"
  | .facetWithoutInner model => "facet '" ++ model ++ "' has no inner spec"
  | .unitWithoutMark model => "unit spec '" ++ model ++ "' has no mark"
  | .rootIsNoSource node => "dataflow root " ++ nodeText node ++ " is not a source"
  | .noSourceAbove checkpoint => "checkpoint " ++ nodeText checkpoint ++ " has no source above it"

inductive CompileError where
  /-- Coercions can only be applied where a source is loaded. -/
  | misplacedParse (node : NodeId)
  | invalidScaleDomain (scale : String) (domain : Json)
  | missingData (model : String)
  | unknownData (name : String)
  | invalidShorthand (text : String)
  | invalidSpec (cause : SpecError)

def CompileError.message : CompileError → String
  | .misplacedParse node =>
    "parse node " ++ nodeText node ++ " is not a direct child of a source node"
  | .invalidScaleDomain scale domain =>
    "invalid domain for scale '" ++ scale ++ "': " ++ domain.compact
  | .missingData model =>
    "spec '" ++ model ++ "' declares no data and has no parent data to inherit"
  | .unknownData name => "unknown data reference '" ++ name ++ "'"
  | .invalidShorthand text => "invalid field shorthand '" ++ text ++ "'"
  | .invalidSpec cause => "invalid chart specification: " ++ cause.message

end ChartPipeline
