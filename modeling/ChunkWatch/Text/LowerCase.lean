import ChunkWatch.Text.LowerCase.Table

/-!
Lower case of text by the Unicode default mapping: letter by letter, except that a capital dotted
I becomes two characters and a capital sigma at the end of a word becomes a final sigma.
-/

namespace ChunkWatch.Text

def lowerEntry? (n : Nat) : Option (Nat × Nat × Nat × Nat) :=
  lowerTable.find? fun e => e.1 ≤ n && n ≤ e.2.1 && (n - e.1) % e.2.2.1 == 0

def lowerChar (c : Char) : Char :=
  match lowerEntry? c.toNat with
  | some e => Char.ofNat (e.2.2.2 + (c.toNat - e.1))
  | none => c

def inTable (table : List (Nat × Nat)) (c : Char) : Bool :=
  table.any fun e => e.1 ≤ c.toNat && c.toNat ≤ e.2

def startsCased (s : List Char) : Bool :=
  match s.dropWhile (inTable ignorableTable) with
  | c :: _ => inTable casedTable c
  | [] => false

/-- The lower case of `s`, where `before` is the text in front of it, last character first. -/
def lowerAfter : List Char → List Char → List Char
  | _, [] => []
  | before, c :: s =>
    let here :=
      if c = 'Σ' then [if startsCased before && !startsCased s then 'ς' else 'σ']
      else if c = 'İ' then ['i', Char.ofNat 0x307]
      else [lowerChar c]
    here ++ lowerAfter (c :: before) s

def lower (s : List Char) : List Char := lowerAfter [] s

end ChunkWatch.Text
