import Mathlib.Data.List.DropRight
import ChunkWatch.Text.Blank
import ChunkWatch.Text.LowerCase

namespace ChunkWatch.Text

variable {c d : Char} {s t before : List Char} {n : Nat}

/-- A character that lower case leaves alone wherever it stands. -/
def IsLower (c : Char) : Prop := c ≠ 'Σ' ∧ c ≠ 'İ' ∧ lowerEntry? c.toNat = none

instance : DecidablePred IsLower := fun c =>
  inferInstanceAs (Decidable (c ≠ 'Σ' ∧ c ≠ 'İ' ∧ lowerEntry? c.toNat = none))

def runsApart (e f : Nat × Nat × Nat × Nat) : Prop :=
  f.2.1 < e.2.2.2 ∨ e.2.2.2 + (e.2.1 - e.1) < f.1 ∨
    ∀ i ≤ e.2.1 - e.1, i % e.2.2.1 = 0 → (e.2.2.2 + i - f.1) % f.2.2.1 ≠ 0

theorem runsApart_of_mem {e f : Nat × Nat × Nat × Nat} (he : e ∈ lowerTable)
    (hf : f ∈ lowerTable) : runsApart e f := by
  -- The kernel compares all pairs of runs, so the test is spelt in its own operations.
  have hall : lowerTable.all (fun e => lowerTable.all fun f =>
      f.2.1.blt e.2.2.2 || (e.2.2.2 + (e.2.1 - e.1)).blt f.1 ||
        (List.range (e.2.1 - e.1 + 1)).all fun i =>
          i % e.2.2.1 != 0 || (e.2.2.2 + i - f.1) % f.2.2.1 != 0) = true := by decide +kernel
  have hpair := List.all_eq_true.mp (List.all_eq_true.mp hall e he) f hf
  simpa [runsApart, Nat.blt_eq, or_assoc, Nat.lt_succ_iff, Decidable.imp_iff_not_or] using hpair

theorem lowerEntry?_eq_some {e : Nat × Nat × Nat × Nat} (h : lowerEntry? n = some e) :
    e ∈ lowerTable ∧ e.1 ≤ n ∧ n ≤ e.2.1 ∧ (n - e.1) % e.2.2.1 = 0 := by
  have hmem := List.mem_of_find?_eq_some h
  have hfound := List.find?_some h
  simp only [Bool.and_eq_true, decide_eq_true_eq, beq_iff_eq] at hfound
  exact ⟨hmem, hfound.1.1, hfound.1.2, hfound.2⟩

theorem lowerEntry?_lower {e : Nat × Nat × Nat × Nat} (h : lowerEntry? n = some e) :
    lowerEntry? (e.2.2.2 + (n - e.1)) = none := by
  obtain ⟨he, hfirst, hlast, hstep⟩ := lowerEntry?_eq_some h
  unfold lowerEntry?
  rw [List.find?_eq_none]
  intro f hf hmeets
  simp only [Bool.and_eq_true, decide_eq_true_eq, beq_iff_eq] at hmeets
  rcases runsApart_of_mem he hf with hbehind | hahead | hbetween
  · omega
  · omega
  · exact hbetween (n - e.1) (Nat.sub_le_sub_right hlast _) hstep hmeets.2

theorem lowerTable_letters : ∀ e ∈ lowerTable, ∀ i < e.2.1 - e.1 + 1, i % e.2.2.1 = 0 →
    (e.2.2.2 + i).isValidChar ∧ Char.ofNat (e.2.2.2 + i) ≠ 'İ' ∧
      isBlank (Char.ofNat (e.2.2.2 + i)) = false := by decide +kernel

theorem letter_of_entry {e : Nat × Nat × Nat × Nat} (h : lowerEntry? n = some e) :
    (e.2.2.2 + (n - e.1)).isValidChar ∧ Char.ofNat (e.2.2.2 + (n - e.1)) ≠ 'İ' ∧
      isBlank (Char.ofNat (e.2.2.2 + (n - e.1))) = false := by
  obtain ⟨hmem, -, hlast, hstep⟩ := lowerEntry?_eq_some h
  have hinside : n - e.1 < e.2.1 - e.1 + 1 := Nat.lt_succ_of_le (Nat.sub_le_sub_right hlast _)
  exact lowerTable_letters e hmem _ hinside hstep

theorem lowerChar_cases (c : Char) : lowerChar c = c ∧ lowerEntry? c.toNat = none ∨
    lowerEntry? (lowerChar c).toNat = none ∧ lowerChar c ≠ 'İ' ∧ isBlank (lowerChar c) = false := by
  rw [lowerChar]
  split
  next e he =>
    obtain ⟨hvalid, hdotted, hblank⟩ := letter_of_entry he
    refine .inr ⟨?_, hdotted, hblank⟩
    rw [Char.ofNat, dif_pos hvalid]
    exact lowerEntry?_lower he
  next he => exact .inl ⟨rfl, he⟩

theorem lowerChar_eq_or_le (c : Char) : lowerChar c = c ∨ 97 ≤ (lowerChar c).toNat := by
  have hfirst : ∀ e ∈ lowerTable, 97 ≤ e.2.2.2 := by decide +kernel
  rw [lowerChar]
  split
  next e he =>
    right
    rw [Char.ofNat, dif_pos (letter_of_entry he).1]
    exact (hfirst e (lowerEntry?_eq_some he).1).trans (Nat.le_add_right ..)
  · exact .inl rfl

def lowerAt (before : List Char) (c : Char) (s : List Char) : List Char :=
  if c = 'Σ' then [if startsCased before && !startsCased s then 'ς' else 'σ']
  else if c = 'İ' then ['i', Char.ofNat 0x307]
  else [lowerChar c]

theorem lowerAfter_cons :
    lowerAfter before (c :: s) = lowerAt before c s ++ lowerAfter (c :: before) s := rfl

theorem isLower_of_mem_lowerAt (h : d ∈ lowerAt before c s) : IsLower d := by
  rw [lowerAt] at h
  split at h
  · split at h <;> rw [List.mem_singleton.mp h] <;> decide +kernel
  next hsigma =>
    split at h
    · rcases List.mem_pair.mp h with rfl | rfl <;> decide +kernel
    next hdotted =>
      rw [List.mem_singleton.mp h]
      rcases lowerChar_cases c with ⟨heq, hentry⟩ | ⟨hentry, hne, -⟩
      · rw [heq]
        exact ⟨hsigma, hdotted, hentry⟩
      · refine ⟨fun heq => ?_, hne, hentry⟩
        rw [heq] at hentry
        exact absurd hentry (by decide +kernel)

theorem isBlank_eq_false_of_mem_lowerAt (h : d ∈ lowerAt before c s) (hc : isBlank c = false) :
    isBlank d = false := by
  rw [lowerAt] at h
  split at h
  · split at h <;> rw [List.mem_singleton.mp h] <;> decide
  · split at h
    · rcases List.mem_pair.mp h with rfl | rfl <;> decide
    · rw [List.mem_singleton.mp h]
      rcases lowerChar_cases c with ⟨heq, -⟩ | ⟨-, -, hblank⟩
      · rw [heq, hc]
      · exact hblank

theorem lowerAt_ne_nil : lowerAt before c s ≠ [] := by
  rw [lowerAt]
  split
  · exact List.cons_ne_nil _ _
  · split <;> exact List.cons_ne_nil _ _

theorem lowerAt_of_isLower (h : IsLower c) : lowerAt before c s = [c] := by
  rw [lowerAt, if_neg h.1, if_neg h.2.1, lowerChar, h.2.2]

theorem eq_of_mem_lowerAt (h : d ∈ lowerAt before c s) (hd : d.toNat < 97) : d = c := by
  rw [lowerAt] at h
  split at h
  · split at h <;> rw [List.mem_singleton.mp h] at hd <;> exact absurd hd (by decide)
  · split at h
    · rcases List.mem_pair.mp h with rfl | rfl <;> exact absurd hd (by decide)
    · rw [List.mem_singleton.mp h] at hd ⊢
      exact (lowerChar_eq_or_le c).resolve_right (by omega)

theorem mem_of_mem_lower (h : d ∈ lower s) (hd : d.toNat < 97) : d ∈ s := by
  have hafter (before : List Char) : d ∈ lowerAfter before s → d ∈ s := by
    clear h
    induction s generalizing before with
    | nil => exact nofun
    | cons c s ih =>
      rw [lowerAfter_cons, List.mem_append, List.mem_cons]
      exact Or.imp (fun h => eq_of_mem_lowerAt h hd) (ih _)
  exact hafter [] h

theorem isLower_of_mem_lower (h : c ∈ lower s) : IsLower c := by
  have hafter (before : List Char) : c ∈ lowerAfter before s → IsLower c := by
    clear h
    induction s generalizing before with
    | nil => exact nofun
    | cons d s ih =>
      rw [lowerAfter_cons, List.mem_append]
      exact fun h => h.elim isLower_of_mem_lowerAt (ih _)
  exact hafter [] h

theorem lower_eq_self (h : ∀ c ∈ s, IsLower c) : lower s = s := by
  have hafter (before : List Char) : lowerAfter before s = s := by
    induction s generalizing before with
    | nil => rfl
    | cons c s ih =>
      obtain ⟨hc, hs⟩ := List.forall_mem_cons.mp h
      rw [lowerAfter_cons, lowerAt_of_isLower hc, ih hs]
      rfl
  exact hafter []

def EndsSolid (s : List Char) : Prop := ∀ c ∈ s.getLast?, isBlank c = false

theorem endsSolid_trim (s : List Char) : EndsSolid (trim s) := by
  intro c hc
  have hne : trim s ≠ [] := by
    intro hnil
    rw [hnil] at hc
    cases hc
  have hlast := List.rdropWhile_last_not isBlank (trimStart s) hne
  rw [List.getLast?_eq_some_getLast hne] at hc
  cases hc
  exact Bool.eq_false_iff.mpr hlast

theorem EndsSolid.lower (h : EndsSolid s) : EndsSolid (lower s) := by
  have hafter (before : List Char) : EndsSolid (lowerAfter before s) := by
    induction s generalizing before with
    | nil => exact nofun
    | cons c s ih =>
      intro d hd
      rw [lowerAfter_cons, List.getLast?_append, Option.mem_def, Option.or_eq_some_iff] at hd
      cases s with
      | nil =>
        have hlast := hd.resolve_left nofun
        exact isBlank_eq_false_of_mem_lowerAt (List.mem_of_getLast? hlast.2) (h c rfl)
      | cons b s =>
        have hs : EndsSolid (b :: s) := fun e he => h e (by rw [List.getLast?_cons_cons]; exact he)
        rcases hd with hd | ⟨hnone, -⟩
        · exact ih hs _ d hd
        · rw [List.getLast?_eq_none_iff, lowerAfter_cons] at hnone
          exact absurd (List.append_eq_nil_iff.mp hnone).1 lowerAt_ne_nil
  exact hafter []

def StartsSolid (s : List Char) : Prop := ∀ c ∈ s.head?, isBlank c = false

theorem trim_isPrefix (s : List Char) : trim s <+: trimStart s :=
  List.rdropWhile_prefix isBlank _

theorem mem_of_mem_trim (h : c ∈ trim s) : c ∈ s :=
  (List.dropWhile_sublist isBlank).subset ((trim_isPrefix s).subset h)

theorem startsSolid_trim (s : List Char) : StartsSolid (trim s) := by
  intro c hc
  obtain ⟨rest, hrest⟩ := trim_isPrefix s
  have hnot := List.head?_dropWhile_not isBlank s
  rw [← trimStart, ← hrest, List.head?_append, hc] at hnot
  simpa using hnot

theorem StartsSolid.lower (h : StartsSolid s) : StartsSolid (lower s) := by
  cases s with
  | nil => exact nofun
  | cons c s =>
    intro d hd
    rw [Text.lower, lowerAfter_cons, List.head?_append_of_ne_nil _ lowerAt_ne_nil] at hd
    exact isBlank_eq_false_of_mem_lowerAt (List.mem_of_head? hd) (h c rfl)

theorem trim_eq_self (hstart : StartsSolid s) (hend : EndsSolid s) :
    trim s = s := by
  have htrimmed : trimStart s = s := by
    cases s with
    | nil => rfl
    | cons c s => exact List.dropWhile_cons_of_neg (Bool.eq_false_iff.mp (hstart c rfl))
  rw [trim, htrimmed, trimEnd]
  refine List.rdropWhile_eq_self_iff.mpr fun hne => ?_
  exact Bool.eq_false_iff.mp (hend _ (List.getLast?_eq_some_getLast hne))

end ChunkWatch.Text
