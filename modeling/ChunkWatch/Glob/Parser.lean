import ChunkWatch.Glob.Basic

namespace ChunkWatch.Glob

inductive Fault : Type
  | unclosedClass : Fault
  | invalidRange : Char → Char → Fault
  | unclosedGroup : Fault
  | unopenedGroup : Fault
  | danglingEscape : Fault
  deriving DecidableEq

def Fault.reason : Fault → String
  | unclosedClass => "unclosed character class; missing ']'"
  | invalidRange a b => s!"invalid range; '{a}' > '{b}'"
  | unclosedGroup =>
    "unclosed alternate group; missing '\x7d' (maybe escape '\x7b' with '[\x7b]'?)"
  | unopenedGroup =>
    "unopened alternate group; missing '\x7b' (maybe escape '\x7d' with '[\x7d]'?)"
  | danglingEscape => "dangling '\\'"

def Fault.message (pattern : String) (f : Fault) : String :=
  s!"error parsing glob '{pattern}': {f.reason}"

inductive Lexeme : Type
  | char : Char → Lexeme
  | escaped : Char → Lexeme
  | oneOf : (negated : Bool) → List (Char × Char) → Lexeme
  | fault : Fault → Lexeme

namespace Lexeme

def first : Lexeme → Char
  | char c => c
  | escaped _ => '\\'
  | oneOf .. => '['
  | fault _ => '['

end Lexeme

inductive ClassEnd : Type
  | closed : List (Char × Char) → List Char → ClassEnd
  | unclosed : ClassEnd
  | invalidRange : Char → Char → ClassEnd

def classMembers (start dash : Bool) (rs : List (Char × Char)) : List Char → ClassEnd
  | [] => .unclosed
  | c :: s =>
    if c = ']' ∧ ¬start then
      .closed (if dash then (('-', '-') :: rs).reverse else rs.reverse) s
    else if c = '-' ∧ ¬start ∧ ¬dash then classMembers false true rs s
    else
      match dash, rs with
      | true, (a, _) :: rs =>
        if c < a then .invalidRange a c else classMembers false false ((a, c) :: rs) s
      | _, rs => classMembers false false ((c, c) :: rs) s

theorem classMembers_length {start dash : Bool} {rs qs : List (Char × Char)} {s t : List Char}
    (h : classMembers start dash rs s = .closed qs t) : t.length < s.length := by
  induction s generalizing start dash rs with
  | nil => simp [classMembers] at h
  | cons c s ih =>
    simp only [classMembers] at h
    split at h
    · cases h
      simp
    · split at h
      · exact Nat.lt_succ_of_lt (ih h)
      · split at h
        · split at h
          · cases h
          · exact Nat.lt_succ_of_lt (ih h)
        · exact Nat.lt_succ_of_lt (ih h)

def classSign : List Char → Bool × List Char
  | '!' :: s => (true, s)
  | '^' :: s => (true, s)
  | s => (false, s)

theorem classSign_length (s : List Char) : (classSign s).2.length ≤ s.length := by
  unfold classSign
  split <;> simp

/-- The lexemes of a pattern.  If `lenient`, a bracket that is never closed stands for itself, and
so does every bracket after it; `classes` says that none has been met. -/
def lexemes (lenient classes : Bool) : List Char → List Lexeme
  | [] => []
  | '\\' :: [] => [.fault .danglingEscape]
  | '\\' :: c :: s => .escaped c :: lexemes lenient classes s
  | c :: s =>
    if c = '[' ∧ classes then
      match _h : classMembers true false [] (classSign s).2 with
      | .closed rs t => .oneOf (classSign s).1 rs :: lexemes lenient classes t
      | .invalidRange a b => [.fault (.invalidRange a b)]
      | .unclosed =>
        if lenient then .char '[' :: lexemes lenient false s else [.fault .unclosedClass]
    else .char c :: lexemes lenient classes s
termination_by s => s.length
decreasing_by
  · simp only [List.length_cons]; omega
  · have := classMembers_length _h
    have := classSign_length s
    simp only [List.length_cons]; omega
  · simp
  · simp

structure Open where
  outer : List (List (List Token) × List Token)
  branches : List (List Token)
  tokens : List Token

namespace Open

def start : Open := ⟨[], [], []⟩

def push (o : Open) (ts : List Token) : Open := { o with tokens := ts.reverse ++ o.tokens }

def inGroup (o : Open) : Bool := !o.outer.isEmpty

def enter (o : Open) : Open := ⟨(o.branches, o.tokens) :: o.outer, [], []⟩

def next (o : Open) : Open := ⟨o.outer, o.tokens.reverse :: o.branches, []⟩

def leave? (o : Open) : Option Open :=
  match o.outer with
  | [] => none
  | (branches, tokens) :: outer =>
    some ⟨outer, branches, .choice (o.tokens.reverse :: o.branches).reverse :: tokens⟩

/-- A recursive token after a recursive prefix or suffix adds nothing; after a slash it takes the
slash's place. -/
def deepen (o : Open) (t : Token) : Open :=
  match o.tokens with
  | .deepPrefix :: _ => o
  | .deepSuffix :: _ => o
  | _ :: ts => { o with tokens := t :: ts }
  | [] => o

end Open

def doubleStar (before : Option Char) (o : Open) (rest : List Lexeme) : Open × Bool :=
  let after := rest.head?.map Lexeme.first
  let plain := (o.push [.star, .star], false)
  if o.tokens.isEmpty then
    if after = none then (o.push [.deepPrefix], false)
    else if after = some '/' then (o.push [.deepPrefix], true)
    else plain
  else if before = some '/' ∨ (o.inGroup ∧ (before = some ',' ∨ before = some '{')) then
    if after = none then (o.deepen .deepSuffix, false)
    else if o.inGroup ∧ (after = some ',' ∨ after = some '}') then (o.deepen .deepSuffix, false)
    else if after = some '/' then (o.deepen .deepBetween, true)
    else plain
  else plain

def group : Option Char → Open → List Lexeme → Except Fault (List Token)
  | _, o, [] => if o.inGroup then .error .unclosedGroup else .ok o.tokens.reverse
  | _, _, .fault f :: _ => .error f
  | _, o, .escaped c :: s => group (some c) (o.push [.literal c]) s
  | _, o, .oneOf n rs :: s => group (some ']') (o.push [.oneOf n rs]) s
  | before, o, .char '*' :: .char '*' :: s =>
    match doubleStar before o s, s with
    | (o, true), _ :: s => group (some '/') o s
    | (o, _), s => group (some '*') o s
  | _, o, .char c :: s =>
    match c with
    | '?' => group (some c) (o.push [.any]) s
    | '*' => group (some c) (o.push [.star]) s
    | '{' => group (some c) o.enter s
    | '}' =>
      match o.leave? with
      | some o => group (some c) o s
      | none => .error .unopenedGroup
    | ',' => group (some c) (if o.inGroup then o.next else o.push [.literal ',']) s
    | c => group (some c) (o.push [.literal c]) s

def parse (lenient : Bool) (pattern : List Char) : Except Fault Glob :=
  (group none .start (lexemes lenient true pattern)).map Glob.mk

end ChunkWatch.Glob
