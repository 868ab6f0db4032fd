import ChunkWatch.Text.Regex

namespace ChunkWatch.Text.Regex

structure Flags where
  ignoreCase : Bool := false
  dotAll : Bool := false
  multiLine : Bool := false
  swapGreed : Bool := false
  verbose : Bool := false

def Flags.set (f : Flags) (on : Bool) : Char → Option Flags
  | 'i' => some { f with ignoreCase := on }
  | 's' => some { f with dotAll := on }
  | 'm' => some { f with multiLine := on }
  | 'U' => some { f with swapGreed := on }
  | 'x' => some { f with verbose := on }
  | 'u' => some f
  | 'R' => some f
  | _ => none

def flags (f : Flags) (on : Bool) : List Char → Option (Flags × List Char)
  | ')' :: s => some (f, ')' :: s)
  | ':' :: s => some (f, ':' :: s)
  | '-' :: s => if on then flags f false s else none
  | c :: s => (f.set on c).bind fun f => flags f on s
  | [] => none

def hexDigit? (c : Char) : Option Nat :=
  if c.isDigit then some (c.toNat - 48)
  else if 'a' ≤ c ∧ c ≤ 'f' then some (c.toNat - 87)
  else if 'A' ≤ c ∧ c ≤ 'F' then some (c.toNat - 55)
  else none

def hexChar? (ds : List Char) : Option Char := do
  let n ← ds.foldlM (fun acc c => (hexDigit? c).map (16 * acc + ·)) 0
  if ds ≠ [] ∧ n.isValidChar then some (Char.ofNat n) else none

def codePoint (n : Nat) : List Char → Option (Char × List Char)
  | '{' :: s => do
    let c ← hexChar? (s.takeWhile (· != '}'))
    match s.dropWhile (· != '}') with
    | '}' :: s => some (c, s)
    | _ => none
  | s => if s.length < n then none else (hexChar? (s.take n)).map (·, s.drop n)

def escape : List Char → Option (CharSet × List Char)
  | [] => none
  | c :: s =>
    let one (c : Char) := some (CharSet.range c c, s)
    match c with
    | 'd' => some (.digit, s)
    | 'D' => some (.complement .digit, s)
    | 's' => some (.space, s)
    | 'S' => some (.complement .space, s)
    | 'w' => some (.word, s)
    | 'W' => some (.complement .word, s)
    | 'n' => one '\n'
    | 't' => one '\t'
    | 'r' => one '\r'
    | 'f' => one '\x0c'
    | 'v' => one '\x0b'
    | 'a' => one '\x07'
    | 'x' => (codePoint 2 s).map fun r => (.range r.1 r.1, r.2)
    | 'u' => (codePoint 4 s).map fun r => (.range r.1 r.1, r.2)
    | 'U' => (codePoint 8 s).map fun r => (.range r.1 r.1, r.2)
    | c => if c.toNat < 0x80 ∧ ¬c.isAlphanum ∧ c ≠ '<' ∧ c ≠ '>' then one c else none

def asciiClass? : String → Option CharSet
  | "alnum" => some (.union [.range '0' '9', .range 'A' 'Z', .range 'a' 'z'])
  | "alpha" => some (.union [.range 'A' 'Z', .range 'a' 'z'])
  | "ascii" => some (.range '\x00' '\x7f')
  | "blank" => some (.union [.range '\t' '\t', .range ' ' ' '])
  | "cntrl" => some (.union [.range '\x00' '\x1f', .range '\x7f' '\x7f'])
  | "digit" => some (.range '0' '9')
  | "graph" => some (.range '!' '~')
  | "lower" => some (.range 'a' 'z')
  | "print" => some (.range ' ' '~')
  | "punct" =>
    some (.union [.range '!' '/', .range ':' '@', .range '[' '\x60', .range '\x7b' '~'])
  | "space" => some (.union [.range '\t' '\r', .range ' ' ' '])
  | "upper" => some (.range 'A' 'Z')
  | "word" => some (.union [.range '0' '9', .range 'A' 'Z', .range 'a' 'z', .range '_' '_'])
  | "xdigit" => some (.union [.range '0' '9', .range 'A' 'F', .range 'a' 'f'])
  | _ => none

def named? (s : List Char) : Option (CharSet × List Char) := do
  let negated := s.head? = some '^'
  let s := if negated then s.tail else s
  let set ← asciiClass? (String.ofList (s.takeWhile (· != ':')))
  match s.dropWhile (· != ':') with
  | ':' :: ']' :: s => some (if negated then .complement set else set, s)
  | _ => none

mutual

def charClass : Nat → List Char → Option (CharSet × List Char)
  | 0, _ => none
  | fuel + 1, s => do
    let negated := s.head? = some '^'
    let s := if negated then s.tail else s
    let dashes := (s.takeWhile (· == '-')).map fun c => CharSet.range c c
    let s := s.dropWhile (· == '-')
    let (first, s) := match s with
      | ']' :: s => if dashes.isEmpty then ([.range ']' ']'], s) else (dashes, ']' :: s)
      | s => (dashes, s)
    let (set, s) ← classItems fuel first s
    some (if negated then .complement set else set, s)

def classItems : Nat → List CharSet → List Char → Option (CharSet × List Char)
  | 0, _, _ => none
  | _ + 1, _, [] => none
  | _ + 1, sets, ']' :: s => some (.union sets, s)
  | fuel + 1, sets, '&' :: '&' :: s => do
    let (right, s) ← classItems fuel [] s
    some (.both (.union sets) right, s)
  | fuel + 1, sets, '~' :: '~' :: s => do
    let (right, s) ← classItems fuel [] s
    let left := CharSet.union sets
    some (.union [.both left (.complement right), .both right (.complement left)], s)
  | fuel + 1, sets, '[' :: ':' :: s =>
    match named? s with
    | some (set, s) => classItems fuel (sets ++ [set]) s
    | none => do
      let (set, s) ← charClass fuel (':' :: s)
      classItems fuel (sets ++ [set]) s
  | fuel + 1, sets, '[' :: s => do
    let (set, s) ← charClass fuel s
    classItems fuel (sets ++ [set]) s
  | fuel + 1, sets, '-' :: '-' :: s =>
    if s.head? = some ']' then classItems fuel (sets ++ [.range '-' '-']) ('-' :: s)
    else do
      let (right, s) ← classItems fuel [] s
      some (.both (.union sets) (.complement right), s)
  | fuel + 1, sets, c :: s => do
    let (set, s) ← classMember (c :: s)
    match set, s with
    | set, '-' :: ']' :: s => classItems fuel (sets ++ [set]) ('-' :: ']' :: s)
    | set, '-' :: '-' :: s => classItems fuel (sets ++ [set]) ('-' :: '-' :: s)
    | .range a _, '-' :: s =>
      match ← classMember s with
      | (.range b _, s) =>
        if b < a then none else classItems fuel (sets ++ [.range a b]) s
      | _ => none
    | _, '-' :: _ => none
    | set, s => classItems fuel (sets ++ [set]) s

def classMember : List Char → Option (CharSet × List Char)
  | '\\' :: s => escape s
  | c :: s => some (.range c c, s)
  | [] => none

end

def number? (s : List Char) : Option (Nat × List Char) :=
  let ds := s.takeWhile Char.isDigit
  if ds.isEmpty then none
  else some (ds.foldl (fun n c => 10 * n + (c.toNat - 48)) 0, s.dropWhile Char.isDigit)

def bounds : List Char → Option ((Nat × Option Nat) × List Char)
  | ',' :: s => do
    let (most, s) ← number? s
    match s with
    | '}' :: s => some ((0, some most), s)
    | _ => none
  | s => do
    let (least, s) ← number? s
    match s with
    | '}' :: s => some ((least, some 0), s)
    | ',' :: '}' :: s => some ((least, none), s)
    | ',' :: s =>
      let (most, s) ← number? s
      match s with
      | '}' :: s => if most < least then none else some ((least, some (most - least)), s)
      | _ => none
    | _ => none

def quantifiers : Nat → Regex → List Char → Option (Regex × List Char)
  | 0, _, _ => none
  | fuel + 1, r, s =>
    let lazyMark (s : List Char) := if s.head? = some '?' then s.tail else s
    match s with
    | '*' :: s => quantifiers fuel (.repeated r 0 none) (lazyMark s)
    | '+' :: s => quantifiers fuel (.repeated r 1 none) (lazyMark s)
    | '?' :: s => quantifiers fuel (.repeated r 0 (some 1)) (lazyMark s)
    | '{' :: s => do
      let ((least, more), s) ← bounds s
      quantifiers fuel (.repeated r least more) (lazyMark s)
    | s => some (r, s)

def anyChar (f : Flags) : Regex :=
  if f.dotAll then .oneOf false (.complement (.union []))
  else .oneOf false (.complement (.range '\n' '\n'))

def afterName? (s : List Char) : Option (List Char) :=
  let name := s.takeWhile (· != '>')
  match name, s.dropWhile (· != '>') with
  | c :: cs, '>' :: s =>
    if (c.isAlpha || c == '_' || 0x80 ≤ c.toNat && isWord c) &&
        cs.all fun c => isWord c || c == '.' || c == '[' || c == ']' then some s
    else none
  | _, _ => none

def atom (f : Flags) : List Char → Option (Regex × List Char)
  | [] => none
  | c :: s =>
    match c with
    | '.' => some (anyChar f, s)
    | '^' => some (if f.multiLine then .lineStart else .textStart, s)
    | '$' => some (if f.multiLine then .lineEnd else .textEnd, s)
    | '[' => (charClass (s.length + 1) s).map fun r => (.oneOf f.ignoreCase r.1, r.2)
    | '\\' =>
      match s with
      | 'b' :: s => some (.boundary true, s)
      | 'B' :: s => some (.boundary false, s)
      | 'A' :: s => some (.textStart, s)
      | 'z' :: s => some (.textEnd, s)
      | s => (escape s).map fun r => (.oneOf f.ignoreCase r.1, r.2)
    | '*' | '+' | '?' | '{' => none
    | c => some (.oneOf f.ignoreCase (.range c c), s)

mutual

def alternatives : Nat → Flags → List Char → Option (Regex × List Char)
  | 0, _, _ => none
  | fuel + 1, f, s => do
    let (r, f, s) ← sequence fuel f .empty s
    match s with
    | '|' :: s =>
      let (rest, s) ← alternatives fuel f s
      some (.either r rest, s)
    | s => some (r, s)

def sequence : Nat → Flags → Regex → List Char → Option (Regex × Flags × List Char)
  | 0, _, _, _ => none
  | _ + 1, f, before, [] => some (before, f, [])
  | fuel + 1, f, before, c :: s =>
    if c = ')' ∨ c = '|' then some (before, f, c :: s)
    else if f.verbose ∧ isBlank c then sequence fuel f before s
    else if f.verbose ∧ c = '#' then sequence fuel f before (s.dropWhile (· != '\n'))
    else
      match c :: s with
      | '(' :: '?' :: 'P' :: '<' :: s => do
        let s ← afterName? s
        captured fuel f f before s
      | '(' :: '?' :: '<' :: s => do
        let s ← afterName? s
        captured fuel f f before s
      | '(' :: '?' :: s => do
        if s.head? = some ')' then none
        let (g, t) ← flags f true s
        match t with
        | ')' :: t => sequence fuel g before t
        | _ :: t => captured fuel f g before t
        | [] => none
      | '(' :: s => captured fuel f f before s
      | s => do
        let (r, s) ← atom f s
        let (r, s) ← quantifiers (s.length + 1) r s
        sequence fuel f (.seq before r) s

def captured : Nat → Flags → Flags → Regex → List Char → Option (Regex × Flags × List Char)
  | 0, _, _, _, _ => none
  | fuel + 1, f, g, before, s => do
    let (r, s) ← alternatives fuel g s
    match s with
    | ')' :: s =>
      let (r, s) ← quantifiers (s.length + 1) r s
      sequence fuel f (.seq before r) s
    | _ => none

end

def parse (source : String) : Option Regex :=
  match alternatives (4 * source.length + 8) {} source.toList with
  | some (r, []) => some r
  | _ => none

end ChunkWatch.Text.Regex
