namespace ChunkWatch

abbrev Bytes := List UInt8

namespace Bytes

def ofString (s : String) : Bytes := s.toList.flatMap String.utf8EncodeChar

def lead (b : UInt8) : Option (Nat × UInt8 × UInt8 × Nat) :=
  if b < 0x80 then some (0, 0x80, 0xBF, b.toNat)
  else if b < 0xC2 then none
  else if b < 0xE0 then some (1, 0x80, 0xBF, b.toNat - 0xC0)
  else if b = 0xE0 then some (2, 0xA0, 0xBF, 0)
  else if b = 0xED then some (2, 0x80, 0x9F, 0xD)
  else if b < 0xF0 then some (2, 0x80, 0xBF, b.toNat - 0xE0)
  else if b = 0xF0 then some (3, 0x90, 0xBF, 0)
  else if b < 0xF4 then some (3, 0x80, 0xBF, b.toNat - 0xF0)
  else if b = 0xF4 then some (3, 0x80, 0x8F, 4)
  else none

/-- Reads `n` continuation bytes, the first of them between `lo` and `hi`; stops at the first byte
that cannot continue the character. -/
def continuation : Nat → UInt8 → UInt8 → Nat → Bytes → Option Nat × Bytes
  | 0, _, _, acc, s => (some acc, s)
  | _ + 1, _, _, _, [] => (none, [])
  | n + 1, lo, hi, acc, b :: s =>
    if lo ≤ b ∧ b ≤ hi then continuation n 0x80 0xBF (acc * 64 + (b.toNat - 0x80)) s
    else (none, b :: s)

theorem continuation_length (n : Nat) (lo hi : UInt8) (acc : Nat) (s : Bytes) :
    (continuation n lo hi acc s).2.length ≤ s.length := by
  induction s generalizing n lo hi acc with
  | nil => cases n <;> simp [continuation]
  | cons b s ih =>
    cases n with
    | zero => simp [continuation]
    | succ n =>
      simp only [continuation]
      split
      · exact Nat.le_trans (ih ..) (Nat.le_succ _)
      · simp

def piece (b : UInt8) (s : Bytes) : Option Char × Bytes :=
  match lead b with
  | none => (none, s)
  | some (n, lo, hi, acc) => ((continuation n lo hi acc s).1.map Char.ofNat,
      (continuation n lo hi acc s).2)

theorem piece_length (b : UInt8) (s : Bytes) : (piece b s).2.length ≤ s.length := by
  unfold piece
  split
  · simp
  · exact continuation_length ..

def pieces : Bytes → List (Option Char)
  | [] => []
  | b :: s => (piece b s).1 :: pieces (piece b s).2
termination_by s => s.length
decreasing_by exact Nat.lt_succ_of_le (piece_length b s)

def toString? (s : Bytes) : Option String := ((pieces s).mapM id).map String.ofList

def isText (s : Bytes) : Bool := (pieces s).all Option.isSome

def toStringLossy (s : Bytes) : String := String.ofList ((pieces s).map (·.getD '\uFFFD'))

def splitOn (b : UInt8) : Bytes → List Bytes
  | [] => [[]]
  | c :: s =>
    match splitOn b s with
    | [] => [[c]]
    | w :: ws => if c = b then [] :: w :: ws else (c :: w) :: ws

def join (sep : UInt8) : List Bytes → Bytes
  | [] => []
  | [w] => w
  | w :: ws => w ++ sep :: join sep ws

def dropPrefix? : Bytes → Bytes → Option Bytes
  | [], s => some s
  | _ :: _, [] => none
  | b :: p, c :: s => if b = c then dropPrefix? p s else none

def slice (s : Bytes) (start stop : Nat) : Bytes := (s.drop start).take (stop - start)

def slice? (s : Bytes) (start stop : Nat) : Option Bytes :=
  if start ≤ stop ∧ stop ≤ s.length then some (s.slice start stop) else none

def isBoundary (s : Bytes) (i : Nat) : Bool :=
  match s[i]? with
  | some b => !(0x80 ≤ b && b < 0xC0)
  | none => i == s.length

end Bytes

end ChunkWatch
