import ChartPipeline.Json.Token

/-!
# From tokens to a document

Tokens are taken one by one with the containers that are still open. Where the grammar is broken,
every open container ends with the fault.
-/

namespace ChartPipeline.Json

/-- An open container, latest entry first; an open object also has the key that waits for its
value. -/
inductive Frame where
  | items (latest : List Document)
  | members (latest : List (Option String × Document)) (key : Option String)

inductive Want where
  | value
  | valueOrClose
  | commaOrClose
  | key
  | keyOrClose
  | colon

/-- A document, and whether more text follows it. -/
structure Text where
  root : Document
  trailing : Bool

def Frame.close (ending : Option Fault) : Frame → Document
  | .items latest => .array latest.reverse ending
  | .members latest _ => .object latest.reverse ending

def Frame.add (d : Document) : Frame → Frame
  | .items latest => .items (d :: latest)
  | .members latest key => .members ((key, d) :: latest) none

/-- A container closed at a depth. Beyond the limit only its kind remains, and its ending, which is
the first fault inside it that stepping over it meets. -/
def Frame.closeAt (limit : Option Nat) (depth : Nat) (ending : Option Fault) (frame : Frame) :
    Document :=
  if limit.any (· < depth) then
    match frame with
    | .items _ => .deepArray ending
    | .members _ _ => .deepObject ending
  else frame.close ending

def breakOff (limit : Option Nat) (fault : Fault) (d : Document) : List Frame → Document
  | [] => d
  | frame :: stack =>
    breakOff limit fault ((frame.add d).closeAt limit (stack.length + 1) (some fault)) stack

def breakInside (limit : Option Nat) (fault : Fault) : List Frame → Document
  | [] => .faulty fault (some fault)
  | frame :: stack =>
    breakOff limit fault (frame.closeAt limit (stack.length + 1) (some fault)) stack

inductive Progress where
  | going (stack : List Frame) (want : Want)
  | done (root : Document)
  | broken (root : Document)

def settle (d : Document) : List Frame → Progress
  | [] => .done d
  | frame :: stack => .going (frame.add d :: stack) .commaOrClose

def closeFrame (limit : Option Nat) (frame : Frame) (stack : List Frame) : Progress :=
  settle (frame.closeAt limit (stack.length + 1) none) stack

def valueStep (limit : Option Nat) (stack : List Frame) : Token → Progress
  | .openArray => .going (.items [] :: stack) .valueOrClose
  | .openObject => .going (.members [] none :: stack) .keyOrClose
  | .text (some s) => settle (.string s) stack
  | .text none => settle (.faulty .malformed none) stack
  | .scalar d => settle d stack
  | .brokenText onRead onSkip | .broken onRead onSkip =>
    .broken (breakOff limit onSkip (.faulty onRead (some onSkip)) stack)
  | .closeArray | .closeObject | .comma | .colon =>
    .broken (breakOff limit .malformed (.faulty .malformed (some .malformed)) stack)

def keyStep (limit : Option Nat) (latest : List (Option String × Document)) (stack : List Frame) :
    Token → Progress
  | .text key => .going (.members latest key :: stack) .colon
  | .brokenText .malformed onSkip =>
    .broken (breakOff limit onSkip (.faulty onSkip (some onSkip)) (.members latest none :: stack))
  | .brokenText onRead _ => .broken (breakInside limit onRead (.members latest none :: stack))
  | _ => .broken (breakInside limit .malformed (.members latest none :: stack))

def step (limit : Option Nat) : List Frame → Want → Token → Progress
  | stack, .value, token => valueStep limit stack token
  | .items latest :: stack, .valueOrClose, .closeArray => closeFrame limit (.items latest) stack
  | stack, .valueOrClose, token => valueStep limit stack token
  | .items latest :: stack, .commaOrClose, .comma => .going (.items latest :: stack) .value
  | .items latest :: stack, .commaOrClose, .closeArray => closeFrame limit (.items latest) stack
  | .members latest key :: stack, .commaOrClose, .comma =>
    .going (.members latest key :: stack) .key
  | .members latest key :: stack, .commaOrClose, .closeObject =>
    closeFrame limit (.members latest key) stack
  | .members latest key :: stack, .keyOrClose, .closeObject =>
    closeFrame limit (.members latest key) stack
  | .members latest _ :: stack, .keyOrClose, token => keyStep limit latest stack token
  | .members latest _ :: stack, .key, token => keyStep limit latest stack token
  | stack, .colon, .colon => .going stack .value
  | stack, .colon, _ =>
    .broken (breakOff limit .malformed (.faulty .malformed (some .malformed)) stack)
  | stack, _, _ => .broken (breakInside limit .malformed stack)

def endOfText (limit : Option Nat) (stack : List Frame) : Want → Document
  | .value | .colon => breakOff limit .truncated (.faulty .truncated (some .truncated)) stack
  | _ => breakInside limit .truncated stack

/-- The document of tokens, given the open containers and what may come next. -/
def build (limit : Option Nat) : List Frame → Want → List Token → Text
  | stack, want, [] => ⟨endOfText limit stack want, false⟩
  | stack, want, token :: rest =>
    match step limit stack want token with
    | .going stack want => build limit stack want rest
    | .done root => ⟨root, !rest.isEmpty⟩
    | .broken root => ⟨root, false⟩

/-- Reads a text in which containers may be nested up to a limit, if there is one. -/
def Text.ofString (limit : Option Nat) (s : String) : Text :=
  build limit [] .value (tokens s.toList)

def depthLimit : Nat := 127

def Text.read {α : Type} (read : Document → Except Fault α) (text : Text) : Except Fault α := do
  let a ← read text.root
  if text.trailing then .error .malformed else .ok a

end ChartPipeline.Json
