import ChunkWatch.Query.Scan
import ChunkWatch.Text.Regex.Parser

namespace ChunkWatch.Query

open Syntax (Node)
open Text (Regex)

/-- A predicate that can drop a match.  `positive` says which outcome is wanted; with `every`, each
node of the capture must have it, and otherwise one of them. -/
inductive Predicate : Type
  | sameText : String → String → (positive every : Bool) → Predicate
  | hasText : String → String → (positive every : Bool) → Predicate
  | contains : String → Regex → (positive every : Bool) → Predicate
  | oneOf : String → List String → (positive : Bool) → Predicate

namespace Predicate

inductive Fault : Type
  | wrongCount : (function : String) → (expected : String) → (got : Nat) → Fault
  | literalFirst : (function text : String) → Fault
  | captureSecond : (function name : String) → Fault
  | captureAmong : (function name : String) → Fault
  | secondCapture : (function name : String) → Fault
  | thirdArgument : (function text : String) → Fault
  | noKey : (function : String) → Fault
  | invalidRegex : String → Fault

def Fault.message : Fault → String
  | wrongCount f expected got =>
    s!"Wrong number of arguments to {f} predicate. Expected {expected}, got {got}."
  | literalFirst f t =>
    s!"First argument to {f} predicate must be a capture name. Got literal \"{t}\"."
  | captureSecond f c => s!"Second argument to {f} predicate must be a literal. Got capture @{c}."
  | captureAmong f c => s!"Arguments to {f} predicate must be literals. Got capture @{c}."
  | secondCapture f c =>
    s!"Invalid arguments to {f} predicate. Unexpected second capture name @{c}"
  | thirdArgument f t => s!"Invalid arguments to {f} predicate. Unexpected third argument @{t}"
  | noKey f => s!"Invalid arguments to {f} predicate. Missing key argument"
  | invalidRegex r => s!"Invalid regex '{r}'"

def comparison (args : List Argument) (positive every : Bool) : Except Fault Predicate :=
  match args with
  | [.capture a, .capture b] => .ok (.sameText a b positive every)
  | [.capture a, .text t] => .ok (.hasText a t positive every)
  | [.text t, _] => .error (.literalFirst "#eq?" t)
  | args => .error (.wrongCount "#eq?" "2" args.length)

def search (args : List Argument) (positive every : Bool) : Except Fault Predicate :=
  match args with
  | [.capture a, .text t] =>
    match Regex.parse t with
    | some r => .ok (.contains a r positive every)
    | none => .error (.invalidRegex t)
  | [.capture _, .capture b] => .error (.captureSecond "#match?" b)
  | [.text t, _] => .error (.literalFirst "#match?" t)
  | args => .error (.wrongCount "#match?" "2" args.length)

def texts : List Argument → Except Fault (List String)
  | [] => .ok []
  | .text t :: args => (texts args).map (t :: ·)
  | .capture c :: _ => .error (.captureAmong "#any-of?" c)

def membership (args : List Argument) (positive : Bool) : Except Fault Predicate :=
  match args with
  | [] => .error (.wrongCount "#any-of?" "at least 1" 0)
  | .text t :: _ => .error (.literalFirst "#any-of?" t)
  | .capture a :: args => (texts args).map fun ts => .oneOf a ts positive

def property (function : String) (args : List Argument) : Except Fault Unit :=
  let rec go (capture : Bool) (texts : Nat) : List Argument → Except Fault Unit
    | [] => if texts = 0 then .error (.noKey function) else .ok ()
    | .capture c :: args =>
      if capture then .error (.secondCapture function c) else go true texts args
    | .text t :: args => if texts = 2 then .error (.thirdArgument function t)
      else go capture (texts + 1) args
  if args.isEmpty ∨ 3 < args.length then
    .error (.wrongCount function "1 to 3" args.length)
  else go false 0 args

def ofCall (c : Call) : Except Fault (Option Predicate) :=
  let args := c.arguments
  match c.function with
  | "eq?" => (comparison args true true).map some
  | "not-eq?" => (comparison args false true).map some
  | "any-eq?" => (comparison args true false).map some
  | "any-not-eq?" => (comparison args false false).map some
  | "match?" => (search args true true).map some
  | "not-match?" => (search args false true).map some
  | "any-match?" => (search args true false).map some
  | "any-not-match?" => (search args false false).map some
  | "any-of?" => (membership args true).map some
  | "not-any-of?" => (membership args false).map some
  | "set!" => (property "set!" args).map fun _ => none
  | "is?" => (property "is?" args).map fun _ => none
  | "is-not?" => (property "is-not?" args).map fun _ => none
  | _ => .ok none

def nodesOf (name : String) (cs : Captures) : List Node :=
  cs.filterMap fun c => if c.1 = name then some c.2 else none

def textOf (text : Bytes) (n : Node) : Bytes :=
  (text.slice? n.label.start n.label.stop).getD []

def decideBy (positive every : Bool) (outcomes : List Bool) : Option Bool :=
  if every then if outcomes.all (· == positive) then none else some false
  else if outcomes.any (· == positive) then some true else none

def holds (text : Bytes) (cs : Captures) : Predicate → Bool
  | sameText a b positive every =>
    let ms := nodesOf a cs
    let ns := nodesOf b cs
    let outcomes := ms.zipWith (fun m n => textOf text m == textOf text n) ns
    (decideBy positive every outcomes).getD (ms.length == ns.length)
  | hasText a t positive every =>
    (decideBy positive every
      ((nodesOf a cs).map fun n => textOf text n == Bytes.ofString t)).getD true
  | contains a r positive every =>
    (decideBy positive every
      ((nodesOf a cs).map fun n => r.occursIn (textOf text n).pieces.toArray)).getD true
  | oneOf a ts positive =>
    (nodesOf a cs).all fun n =>
      (ts.any fun t => textOf text n == Bytes.ofString t) == positive

end Predicate

end ChunkWatch.Query
