namespace ChunkWatch

inductive Json : Type
  | num : Nat → Json
  | str : String → Json
  | arr : List Json → Json
  | obj : List (String × Json) → Json

namespace Json

def hexDigit (n : Nat) : Char := Char.ofNat (if n < 10 then 48 + n else 87 + n)

def escapeChar (c : Char) : List Char :=
  match c with
  | '"' => ['\\', '"']
  | '\\' => ['\\', '\\']
  | '\n' => ['\\', 'n']
  | '\r' => ['\\', 'r']
  | '\t' => ['\\', 't']
  | '\x08' => ['\\', 'b']
  | '\x0c' => ['\\', 'f']
  | c =>
    if c.toNat < 0x20 then
      ['\\', 'u', '0', '0', hexDigit (c.toNat / 16), hexDigit (c.toNat % 16)]
    else [c]

def quote (s : String) : String := String.ofList ('"' :: s.toList.flatMap escapeChar ++ ['"'])

def indent (level : Nat) : String := String.ofList ('\n' :: List.replicate (2 * level) ' ')

def block (level : Nat) (left right : String) : List String → String
  | [] => left ++ right
  | items =>
    left ++ String.intercalate "," (items.map (indent (level + 1) ++ ·)) ++ indent level ++ right

mutual

def prettyAt (level : Nat) : Json → String
  | num n => toString n
  | str s => quote s
  | arr vs => block level "[" "]" (elements (level + 1) vs)
  | obj ms => block level "\x7b" "\x7d" (members (level + 1) ms)

def elements (level : Nat) : List Json → List String
  | [] => []
  | v :: vs => v.prettyAt level :: elements level vs

def members (level : Nat) : List (String × Json) → List String
  | [] => []
  | m :: ms => member level m :: members level ms

def member (level : Nat) : String × Json → String
  | (k, v) => quote k ++ ": " ++ v.prettyAt level

end

def pretty (j : Json) : String := j.prettyAt 0

end Json

end ChunkWatch
