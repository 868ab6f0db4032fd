import ChunkWatch.Text.Bytes

namespace ChunkWatch.Bytes

variable {b : UInt8} {c : Char} {s : Bytes} {n acc : Nat}

theorem toNat_ofNat (h : n < 256) : (UInt8.ofNat n).toNat = n := by
  rw [UInt8.toNat_ofNat', Nat.mod_eq_of_lt h]

theorem lead_ofNat (h : n < 256) : lead (.ofNat n) =
    if n < 0x80 then some (0, 0x80, 0xBF, n)
    else if n < 0xC2 then none
    else if n < 0xE0 then some (1, 0x80, 0xBF, n - 0xC0)
    else if n = 0xE0 then some (2, 0xA0, 0xBF, 0)
    else if n = 0xED then some (2, 0x80, 0x9F, 0xD)
    else if n < 0xF0 then some (2, 0x80, 0xBF, n - 0xE0)
    else if n = 0xF0 then some (3, 0x90, 0xBF, 0)
    else if n < 0xF4 then some (3, 0x80, 0xBF, n - 0xF0)
    else if n = 0xF4 then some (3, 0x80, 0x8F, 4)
    else none := by
  simp only [lead, UInt8.lt_iff_toNat_lt, ← UInt8.toNat_inj, toNat_ofNat h]
  rfl

theorem continuation_ofNat {lo hi : UInt8} (h : n < 256) (hlo : lo.toNat ≤ n) (hhi : n ≤ hi.toNat)
    (k : Nat) (s : Bytes) : continuation (k + 1) lo hi acc (.ofNat n :: s) =
      continuation k 0x80 0xBF (acc * 64 + (n - 0x80)) s := by
  have hin : lo ≤ .ofNat n ∧ .ofNat n ≤ hi := by
    simp only [UInt8.le_iff_toNat_le, toNat_ofNat h]
    exact ⟨hlo, hhi⟩
  rw [continuation, if_pos hin, toNat_ofNat h]

theorem continuation_zero {lo hi : UInt8} (s : Bytes) :
    continuation 0 lo hi acc s = (some acc, s) := by
  cases s <;> rfl

theorem continuation_rest (k m : Nat) (s : Bytes) :
    continuation (k + 1) 0x80 0xBF acc (.ofNat (m % 64 + 128) :: s) =
      continuation k 0x80 0xBF (acc * 64 + m % 64) s := by
  have hm := Nat.mod_lt m (show 64 > 0 by decide)
  rw [continuation_ofNat (by omega) (by simp) (by simp; omega), Nat.add_sub_cancel]

theorem piece_one (h : n ≤ 0x7F) (s : Bytes) :
    piece (.ofNat n) s = (some (Char.ofNat n), s) := by
  rw [piece, lead_ofNat (by omega), if_pos (by omega)]
  simp only [continuation_zero, Option.map_some]

theorem piece_two (h : 0x80 ≤ n) (k : n ≤ 0x7FF) (s : Bytes) :
    piece (.ofNat (n / 64 % 32 + 192)) (.ofNat (n % 64 + 128) :: s) =
      (some (Char.ofNat n), s) := by
  rw [piece, lead_ofNat (by omega), if_neg (by omega), if_neg (by omega), if_pos (by omega)]
  simp only [continuation_rest, continuation_zero, Option.map_some]
  congr 3
  omega

/-- The ranges for the second byte leave out what two bytes can say, and the surrogates. -/
theorem piece_three (h : 0x800 ≤ n) (k : n ≤ 0xFFFF) (hn : n.isValidChar) (s : Bytes) :
    piece (.ofNat (n / 4096 % 16 + 224))
        (.ofNat (n / 64 % 64 + 128) :: .ofNat (n % 64 + 128) :: s) =
      (some (Char.ofNat n), s) := by
  obtain ⟨lo, hi, hlead, hlo, hhi⟩ : ∃ lo hi, lead (.ofNat (n / 4096 % 16 + 224)) =
      some (2, lo, hi, n / 4096) ∧ lo.toNat ≤ n / 64 % 64 + 128 ∧ n / 64 % 64 + 128 ≤ hi.toNat := by
    rw [lead_ofNat (by omega), if_neg (by omega), if_neg (by omega), if_neg (by omega)]
    by_cases hfirst : n / 4096 = 0
    · rw [if_pos (by omega), hfirst]
      exact ⟨_, _, rfl, by change 0xA0 ≤ _; omega, by change _ ≤ 0xBF; omega⟩
    · rw [if_neg (by omega)]
      by_cases hsurrogate : n / 4096 = 0xD
      · rw [if_pos (by omega), hsurrogate]
        have hbelow : n < 0xD800 := hn.resolve_right (by omega)
        exact ⟨_, _, rfl, by change 0x80 ≤ _; omega, by change _ ≤ 0x9F; omega⟩
      · rw [if_neg (by omega), if_pos (by omega)]
        rw [show n / 4096 % 16 + 224 - 0xE0 = n / 4096 by omega]
        exact ⟨_, _, rfl, by change 0x80 ≤ _; omega, by change _ ≤ 0xBF; omega⟩
  rw [piece, hlead]
  simp only [continuation_ofNat (show n / 64 % 64 + 128 < 256 by omega) hlo hhi, continuation_rest,
    continuation_zero, Option.map_some]
  congr 3
  omega

theorem piece_four (h : 0x10000 ≤ n) (hn : n.isValidChar) (s : Bytes) :
    piece (.ofNat (n / 262144 % 8 + 240)) (.ofNat (n / 4096 % 64 + 128) ::
      .ofNat (n / 64 % 64 + 128) :: .ofNat (n % 64 + 128) :: s) = (some (Char.ofNat n), s) := by
  have hlast : n < 0x110000 := by
    rcases hn with hn | hn
    · omega
    · exact hn.2
  obtain ⟨lo, hi, hlead, hlo, hhi⟩ : ∃ lo hi, lead (.ofNat (n / 262144 % 8 + 240)) =
      some (3, lo, hi, n / 262144) ∧ lo.toNat ≤ n / 4096 % 64 + 128 ∧
        n / 4096 % 64 + 128 ≤ hi.toNat := by
    rw [lead_ofNat (by omega), if_neg (by omega), if_neg (by omega), if_neg (by omega),
      if_neg (by omega), if_neg (by omega), if_neg (by omega)]
    by_cases hfirst : n / 262144 = 0
    · rw [if_pos (by omega), hfirst]
      exact ⟨_, _, rfl, by change 0x90 ≤ _; omega, by change _ ≤ 0xBF; omega⟩
    · rw [if_neg (by omega)]
      by_cases hend : n / 262144 = 4
      · rw [if_neg (by omega), if_pos (by omega), hend]
        exact ⟨_, _, rfl, by change 0x80 ≤ _; omega, by change _ ≤ 0x8F; omega⟩
      · rw [if_pos (by omega)]
        rw [show n / 262144 % 8 + 240 - 0xF0 = n / 262144 by omega]
        exact ⟨_, _, rfl, by change 0x80 ≤ _; omega, by change _ ≤ 0xBF; omega⟩
  rw [piece, hlead]
  simp only [continuation_ofNat (show n / 4096 % 64 + 128 < 256 by omega) hlo hhi,
    continuation_rest, continuation_zero, Option.map_some]
  congr 3
  omega

theorem piece_encode (c : Char) (s : Bytes) : ∃ b t, String.utf8EncodeChar c = b :: t ∧
    piece b (t ++ s) = (some c, s) := by
  have hc : Char.ofNat c.val.toNat = c := Char.ofNat_toNat c
  have hvalid : c.val.toNat.isValidChar := c.valid
  rw [String.utf8EncodeChar.eq_def]
  dsimp only
  split
  next h => exact ⟨_, _, rfl, by rw [List.nil_append, piece_one h, hc]⟩
  next h =>
    split
    next k => exact ⟨_, _, rfl, (piece_two (by omega) k s).trans (by rw [hc])⟩
    next h =>
      split
      next k => exact ⟨_, _, rfl, (piece_three (by omega) k hvalid s).trans (by rw [hc])⟩
      next h => exact ⟨_, _, rfl, (piece_four (by omega) hvalid s).trans (by rw [hc])⟩

theorem pieces_ofString (t : String) : pieces (ofString t) = t.toList.map some := by
  rw [ofString]
  induction t.toList with
  | nil =>
    rw [List.flatMap_nil, pieces]
    rfl
  | cons c cs ih =>
    obtain ⟨b, s, hencode, hpiece⟩ := piece_encode c (cs.flatMap String.utf8EncodeChar)
    rw [List.flatMap_cons, hencode, List.cons_append, pieces, hpiece, ih, List.map_cons]

theorem toString?_ofString (t : String) : (ofString t).toString? = some t := by
  have hall (cs : List Char) : (cs.map some).mapM id = some cs := by
    induction cs with
    | nil => rfl
    | cons c cs ih => rw [List.map_cons, List.mapM_cons, ih]; rfl
  rw [toString?, pieces_ofString, hall, Option.map_some, String.ofList_toList]

theorem mem_encode_iff (hb : b.toNat < 0x80) :
    b ∈ String.utf8EncodeChar c ↔ Char.ofNat b.toNat = c := by
  have hlong {m : Nat} (h : 0x80 ≤ m) (k : m < 256) : b ≠ .ofNat m := by
    rintro rfl
    rw [toNat_ofNat k] at hb
    omega
  constructor
  · intro hmem
    rw [String.utf8EncodeChar.eq_def] at hmem
    dsimp only at hmem
    split at hmem
    next h =>
      rw [List.mem_singleton.mp hmem, toNat_ofNat (by omega)]
      exact Char.ofNat_toNat c
    next =>
      refine absurd hmem ?_
      split
      · simp only [List.mem_cons, List.not_mem_nil, or_false, not_or]
        exact ⟨hlong (by omega) (by omega), hlong (by omega) (by omega)⟩
      · split
        · simp only [List.mem_cons, List.not_mem_nil, or_false, not_or]
          exact ⟨hlong (by omega) (by omega), hlong (by omega) (by omega),
            hlong (by omega) (by omega)⟩
        · simp only [List.mem_cons, List.not_mem_nil, or_false, not_or]
          exact ⟨hlong (by omega) (by omega), hlong (by omega) (by omega),
            hlong (by omega) (by omega), hlong (by omega) (by omega)⟩
  · rintro rfl
    have hvalue : (Char.ofNat b.toNat).val.toNat = b.toNat := by
      have hvalid : b.toNat.isValidChar := .inl (by omega)
      rw [Char.ofNat, dif_pos hvalid]
      rfl
    rw [String.utf8EncodeChar.eq_def]
    dsimp only
    rw [hvalue, if_pos (by omega), UInt8.ofNat_toNat]
    exact List.mem_singleton_self b

theorem mem_ofString_iff {t : String} (hb : b.toNat < 0x80) :
    b ∈ ofString t ↔ Char.ofNat b.toNat ∈ t.toList := by
  simp only [ofString, List.mem_flatMap, mem_encode_iff hb, exists_eq_right']

end ChunkWatch.Bytes
