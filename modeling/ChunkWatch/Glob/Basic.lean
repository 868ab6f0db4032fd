import ChunkWatch.Path

/-! Glob patterns and the paths they match.  A pattern is a list of tokens; a token accepts a
beginning of the text and hands the rest on, so a pattern accepts a text when its tokens, each in
front of the next, use it up. -/

namespace ChunkWatch.Glob

inductive Token : Type
  | literal : Char → Token
  | any : Token
  | star : Token
  /-- Nothing, or anything up to some slash. -/
  | deepPrefix : Token
  /-- A slash and anything after it. -/
  | deepSuffix : Token
  /-- A slash, or two of them with anything between. -/
  | deepBetween : Token
  | oneOf : (negated : Bool) → List (Char × Char) → Token
  | choice : List (List Token) → Token

/-- The byte ranges of a range of characters, whose encodings are written side by side: only the
byte before the dash and the one after it span a range. -/
def byteRanges (r : Char × Char) : List (UInt8 × UInt8) :=
  let low := String.utf8EncodeChar r.1
  let high := String.utf8EncodeChar r.2
  if r.1 = r.2 then low.map fun b => (b, b)
  else
    low.dropLast.map (fun b => (b, b)) ++ [(low.getLastD 0, high.headD 0)] ++
      high.tail.map fun b => (b, b)

def inRanges (rs : List (Char × Char)) (b : UInt8) : Bool :=
  (rs.flatMap byteRanges).any fun r => r.1 ≤ b && b ≤ r.2

def withinName (k : Bytes → Bool) : Bytes → Bool
  | [] => k []
  | b :: s => k (b :: s) || (b != slash && withinName k s)

def anywhere (k : Bytes → Bool) : Bytes → Bool
  | [] => k []
  | b :: s => k (b :: s) || anywhere k s

def afterSlash (k : Bytes → Bool) : Bytes → Bool
  | [] => false
  | b :: s => (b == slash && k s) || afterSlash k s

mutual

def Token.isVoid : Token → Bool
  | .choice bs => branchesVoid bs
  | _ => false

def tokensVoid : List Token → Bool
  | [] => true
  | t :: ts => t.isVoid && tokensVoid ts

def branchesVoid : List (List Token) → Bool
  | [] => true
  | b :: bs => tokensVoid b && branchesVoid bs

end

mutual

def Token.accepts : Token → (Bytes → Bool) → Bytes → Bool
  | .literal c, k, s => (Bytes.dropPrefix? (String.utf8EncodeChar c) s).any k
  | .any, k, s => match s with
    | b :: s => b != slash && k s
    | [] => false
  | .star, k, s => withinName k s
  | .deepPrefix, k, s => k s || afterSlash k s
  | .deepSuffix, k, s => match s with
    | b :: s => b == slash && anywhere k s
    | [] => false
  | .deepBetween, k, s => match s with
    | b :: s => b == slash && (k s || afterSlash k s)
    | [] => false
  | .oneOf negated rs, k, s => match s with
    | b :: s => (inRanges rs b != negated) && k s
    | [] => false
  | .choice bs, k, s => if branchesVoid bs then k s else someBranch bs k s

def allAccept : List Token → (Bytes → Bool) → Bytes → Bool
  | [], k, s => k s
  | t :: ts, k, s => t.accepts (allAccept ts k) s

def someBranch : List (List Token) → (Bytes → Bool) → Bytes → Bool
  | [], _, _ => false
  | b :: bs, k, s => (!tokensVoid b && allAccept b k s) || someBranch bs k s

end

def Token.isLiteral : Token → Bool
  | .literal _ => true
  | _ => false

/-- Whether a pattern that ends in a dot is decided by the name or the extension of a path: it is
neither literal throughout nor a literal path of several components below any directory. -/
def readsName (ts : List Token) : Bool :=
  match ts with
  | .deepPrefix :: rest => !(rest.all Token.isLiteral && rest.any fun
      | .literal '/' => true
      | _ => false)
  | _ => !ts.all Token.isLiteral

def endsInDot (ts : List Token) : Bool :=
  match ts.getLast? with
  | some (.literal '.') => true
  | _ => false

end Glob

structure Glob where
  tokens : List Glob.Token

namespace Glob

/-- A path whose last byte is a dot names no entry, so a pattern that reads the name does not
match it. -/
def «matches» (g : Glob) (s : Bytes) : Bool :=
  match g.tokens with
  | [.deepPrefix] => true
  | ts => !(endsInDot ts && readsName ts) && allAccept ts List.isEmpty s

end Glob

end ChunkWatch
