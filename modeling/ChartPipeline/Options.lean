import ChartPipeline.Json.Document
import ChartPipeline.Json.Reader

/-!
# Options
-/

namespace ChartPipeline

open Document (fill nullable)

structure Options where
  /-- Whether rows without a proper value are dropped for all fields or for none. If it is not
  given, they are dropped for numbers and dates. -/
  filterInvalid : Option Bool := none
  numberFormat : String := "s"
deriving DecidableEq, Repr

namespace Options

structure Draft where
  filterInvalid : Option (Option Bool) := none
  numberFormat : Option String := none

def step (draft : Draft) (key : String) (d : Document) : Except Fault Draft :=
  match key with
  | "filterInvalid" =>
    return { draft with filterInvalid := ← fill draft.filterInvalid (nullable Document.boolean d) }
  | "numberFormat" => return { draft with numberFormat := ← fill draft.numberFormat d.text }
  | _ => do d.skip; return draft

/-- Both options may be left out; only the first may be null. -/
def finish (_positional : Bool) (draft : Draft) : Except Fault Options :=
  .ok
    { filterInvalid := draft.filterInvalid.getD none
      numberFormat := draft.numberFormat.getD ({} : Options).numberFormat }

def ofDocument : Document → Except Fault Options :=
  Document.record ["filterInvalid", "numberFormat"] step {} finish

def ofJson? (v : Json) : Option Options := (ofDocument (Document.ofJson v)).toOption

def ofText (s : String) : Except Fault Options :=
  (Json.Text.ofString (some Json.depthLimit) s).read ofDocument

end Options

end ChartPipeline
