import Mathlib.Data.List.Basic
import Mathlib.Data.List.Induction
import ChunkWatch.Path

namespace ChunkWatch

namespace Bytes

theorem splitOn_eq (b : UInt8) (s : Bytes) : splitOn b s = List.splitOn b s := by
  induction s with
  | nil => simp [splitOn]
  | cons c s ih =>
    rw [splitOn, ih, List.splitOn_cons_eq_if_modifyHead]
    cases h : List.splitOn b s with
    | nil => exact absurd h (List.splitOn_ne_nil b s)
    | cons w ws => simp

theorem join_eq (b : UInt8) (ws : List Bytes) : join b ws = [b].intercalate ws := by
  induction ws with
  | nil => simp [join]
  | cons w ws ih =>
    cases ws with
    | nil => simp [join]
    | cons v ws => simp [join, ih, List.intercalate_cons_of_ne_nil]

theorem splitOn_ne_nil (b : UInt8) (s : Bytes) : splitOn b s ≠ [] := by
  rw [splitOn_eq]
  exact List.splitOn_ne_nil b s

theorem splitOn_cons_of_ne {b c : UInt8} (h : c ≠ b) (s : Bytes) :
    ∃ w ws, splitOn b (c :: s) = (c :: w) :: ws := by
  rw [splitOn]
  split
  next hs => exact absurd hs (splitOn_ne_nil b s)
  · exact ⟨_, _, if_neg h⟩

theorem splitOn_append (b : UInt8) (s t : Bytes) :
    splitOn b (s ++ b :: t) = splitOn b s ++ splitOn b t := by
  simp only [splitOn_eq]
  exact List.splitOn_append_cons_self s t

theorem splitOn_of_not_mem {b : UInt8} {s : Bytes} (h : b ∉ s) : splitOn b s = [s] := by
  rw [splitOn_eq]
  exact List.splitOn_eq_singleton h

theorem splitOn_join {b : UInt8} {ws : List Bytes} (h : ∀ w ∈ ws, b ∉ w) (k : ws ≠ []) :
    splitOn b (join b ws) = ws := by
  rw [splitOn_eq, join_eq]
  exact List.splitOn_intercalate b h k

theorem join_splitOn (b : UInt8) (s : Bytes) : join b (splitOn b s) = s := by
  rw [splitOn_eq, join_eq, List.intercalate_splitOn]

theorem join_append {b : UInt8} {us vs : List Bytes} (hus : us ≠ []) (hvs : vs ≠ []) :
    join b (us ++ vs) = join b us ++ b :: join b vs := by
  simp only [join_eq]
  induction us with
  | nil => exact absurd rfl hus
  | cons u us ih =>
    by_cases hus : us = []
    · rw [hus, List.singleton_append, List.intercalate_cons_of_ne_nil hvs,
        List.intercalate_singleton, List.append_assoc]
      rfl
    · rw [List.cons_append, List.intercalate_cons_of_ne_nil (by simp [hvs]), ih hus,
        List.intercalate_cons_of_ne_nil hus]
      simp only [List.append_assoc]

theorem join_eq_append_iff {b : UInt8} {front back : Bytes} {ws : List Bytes}
    (h : ∀ w ∈ ws, b ∉ w) (k : ws ≠ []) : join b ws = front ++ b :: back ↔
      ∃ us vs, ws = us ++ vs ∧ us ≠ [] ∧ vs ≠ [] ∧ front = join b us ∧ back = join b vs := by
  constructor
  · intro heq
    refine ⟨splitOn b front, splitOn b back, ?_, splitOn_ne_nil b front, splitOn_ne_nil b back,
      (join_splitOn b front).symm, (join_splitOn b back).symm⟩
    rw [← splitOn_join h k, heq, splitOn_append]
  · rintro ⟨us, vs, rfl, hus, hvs, rfl, rfl⟩
    exact join_append hus hvs

theorem join_eq_iff {b : UInt8} {w : Bytes} {ws : List Bytes} (h : b ∉ w) (hne : ws ≠ []) :
    join b ws = w ↔ ws = [w] := by
  constructor
  · intro heq
    obtain _ | ⟨v, _ | ⟨v', vs⟩⟩ := ws
    · exact absurd rfl hne
    · rw [join_eq, List.intercalate_singleton] at heq
      rw [heq]
    · refine absurd ?_ h
      rw [← heq, ← List.singleton_append, join_append (by simp) (by simp)]
      simp
  · rintro rfl
    rw [join_eq, List.intercalate_singleton]

theorem not_mem_of_mem_splitOn {b : UInt8} {s w : Bytes} (h : w ∈ splitOn b s) : b ∉ w := by
  induction s generalizing w with
  | nil =>
    have hw : w = [] := by simpa [splitOn] using h
    simp [hw]
  | cons c s ih =>
    rw [splitOn] at h
    split at h
    next hs => exact absurd hs (splitOn_ne_nil b s)
    next v vs hs =>
      split at h
      · rcases List.mem_cons.mp h with rfl | h
        · simp
        · exact ih (hs ▸ h)
      next hc =>
        rcases List.mem_cons.mp h with rfl | h
        · have hv : b ∉ v := ih (by rw [hs]; simp)
          simp [hv, Ne.symm hc]
        · exact ih (by rw [hs]; exact List.mem_cons_of_mem v h)

end Bytes

namespace Component

def IsName (s : Bytes) : Prop := slash ∉ s ∧ ofSegment? s = some (.name s)

instance : DecidablePred IsName := fun s =>
  inferInstanceAs (Decidable (slash ∉ s ∧ ofSegment? s = some (.name s)))

theorem ofSegment?_nil : ofSegment? [] = none := by decide

theorem ofSegment?_dot : ofSegment? [dot] = none := by decide

theorem ofSegment?_parent : ofSegment? [dot, dot] = some .parent := by decide

theorem ofSegment?_eq_name_iff {s t : Bytes} :
    ofSegment? s = some (.name t) ↔ s = t ∧ s ≠ [] ∧ s ≠ [dot] ∧ s ≠ [dot, dot] := by
  rw [ofSegment?]
  split
  next h => rcases h with rfl | rfl <;> simp
  next h =>
    obtain ⟨hnil, hdot⟩ := not_or.mp h
    split
    next h => simp [h]
    next h => simp [hnil, hdot, h]

theorem ofSegment?_eq_some {s : Bytes} {c : Component} (h : ofSegment? s = some c) :
    c = .parent ∨ c = .name s := by
  rw [ofSegment?] at h
  split at h
  · cases h
  · split at h
    · exact .inl (Option.some.inj h).symm
    · exact .inr (Option.some.inj h).symm

theorem names_injective : Function.Injective (List.map name) := fun _ _ =>
  (List.map_inj_right fun _ _ => name.inj).mp

end Component

namespace Path

open Component (IsName ofSegment?)

def segmentComponents (s : Bytes) : List Component := (s.splitOn slash).filterMap ofSegment?

@[simp] theorem segmentComponents_nil : segmentComponents [] = [] := by decide

@[simp] theorem segmentComponents_append (s t : Bytes) :
    segmentComponents (s ++ slash :: t) = segmentComponents s ++ segmentComponents t := by
  simp [segmentComponents, Bytes.splitOn_append]

theorem components_eq (p : Path) : p.components = p.lead.toList ++ segmentComponents p.bytes := by
  rw [components, body, segmentComponents, lead]
  split
  next h =>
    obtain ⟨bytes⟩ := p
    cases bytes with
    | nil => simp [isAbsolute] at h
    | cons b s =>
      have hb : b = slash := by simpa [isAbsolute] using h
      have hs := Bytes.splitOn_append slash [] s
      rw [List.nil_append] at hs
      rw [hb, hs]
      simp [Bytes.splitOn, Component.ofSegment?_nil]
  · split
    next h =>
      obtain ⟨ws, hws⟩ := List.head?_eq_some_iff.mp h
      rw [hws]
      simp [Component.ofSegment?_dot]
    · rfl

theorem lead_append_slash (s t : Bytes) : lead ⟨s ++ slash :: t⟩ = lead ⟨s ++ [slash]⟩ := by
  have habs : isAbsolute ⟨s ++ slash :: t⟩ = isAbsolute ⟨s ++ [slash]⟩ := by
    cases s <;> rfl
  have hhead : (Bytes.splitOn slash (s ++ slash :: t)).head?
      = (Bytes.splitOn slash (s ++ [slash])).head? := by
    rw [Bytes.splitOn_append, Bytes.splitOn_append]
    cases h : Bytes.splitOn slash s with
    | nil => exact absurd h (Bytes.splitOn_ne_nil slash s)
    | cons w ws => rfl
  rw [lead, lead, habs, hhead]

theorem lead_append_slash_of_ne {s : Bytes} (h : s ≠ []) : lead ⟨s ++ [slash]⟩ = lead ⟨s⟩ := by
  have habs : isAbsolute ⟨s ++ [slash]⟩ = isAbsolute ⟨s⟩ := by
    cases s with
    | nil => exact absurd rfl h
    | cons b s => rfl
  have hhead : (Bytes.splitOn slash (s ++ [slash])).head? = (Bytes.splitOn slash s).head? := by
    rw [Bytes.splitOn_append]
    cases h : Bytes.splitOn slash s with
    | nil => exact absurd h (Bytes.splitOn_ne_nil slash s)
    | cons w ws => rfl
  rw [lead, lead, habs, hhead]

theorem components_join_segments {p q : Path} (hq : q.isAbsolute = false) (hp : p.bytes ≠ []) :
    (p.join q).components = p.components ++ segmentComponents q.bytes := by
  rw [join, hq, if_neg Bool.false_ne_true]
  split
  next h =>
    -- The path ends in a slash already.
    obtain ⟨s, hs⟩ := List.getLast?_eq_some_iff.mp (h.resolve_left hp)
    rw [components_eq, components_eq p]
    have hp' : p = ⟨s ++ [slash]⟩ := by rw [← hs]
    rw [hp']
    simp only [List.append_assoc, List.singleton_append, segmentComponents_append,
      lead_append_slash s q.bytes, segmentComponents_nil, List.append_nil]
  next h =>
    rw [components_eq, components_eq p]
    simp only [segmentComponents_append, lead_append_slash, lead_append_slash_of_ne hp,
      List.append_assoc]

theorem lead_eq_none_iff {p : Path} : p.lead = none ↔
    p.isAbsolute = false ∧ (p.bytes.splitOn slash).head? ≠ some [dot] := by
  rw [lead]
  split
  next h => simp [h]
  next h =>
    split
    next k => simp [k]
    next k => simp [Bool.eq_false_iff.mpr h, k]

theorem components_join {p q : Path} (h : q.lead = none) :
    (p.join q).components = p.components ++ q.components := by
  have hq := (lead_eq_none_iff.mp h).1
  by_cases hp : p.bytes = []
  · have hp' : p = ⟨[]⟩ := by
      obtain ⟨bytes⟩ := p
      rw [← hp]
    rw [hp', join, hq]
    rfl
  · rw [components_join_segments hq hp, components_eq q, h]
    rfl

theorem lead_eq_some {p : Path} {c : Component} (h : p.lead = some c) :
    c = .root ∨ c = .current := by
  rw [lead] at h
  split at h
  · exact .inl (Option.some.inj h).symm
  · split at h
    · exact .inr (Option.some.inj h).symm
    · cases h

theorem lead_slash (s : Bytes) : lead ⟨slash :: s⟩ = some .root := by simp [lead, isAbsolute]

theorem isAbsolute_of_not_mem {s : Bytes} (h : slash ∉ s) : isAbsolute ⟨s⟩ = false := by
  cases s with
  | nil => rfl
  | cons b s =>
    have hb : b ≠ slash := fun hb => h (by simp [hb])
    simpa [isAbsolute] using hb

theorem lead_of_not_mem {s : Bytes} (h : slash ∉ s) (k : s ≠ [dot]) : lead ⟨s⟩ = none := by
  rw [lead_eq_none_iff, Bytes.splitOn_of_not_mem h]
  exact ⟨isAbsolute_of_not_mem h, by simpa using k⟩

theorem lead_of_names {p : Path} {names : List Bytes} (h : p.components = names.map .name) :
    p.lead = none := by
  cases hlead : p.lead with
  | none => rfl
  | some c =>
    have hc : c ∈ names.map Component.name := by
      rw [← h, components, hlead]
      exact List.mem_cons_self
    obtain ⟨s, -, hs⟩ := List.mem_map.mp hc
    rcases lead_eq_some hlead with h | h <;> exact absurd (hs.trans h) nofun

theorem components_push {s : Bytes} (h : IsName s) (p : Path) :
    (p.push s).components = p.components ++ [.name s] := by
  have hdot : s ≠ [dot] := (Component.ofSegment?_eq_name_iff.mp h.2).2.2.1
  rw [push, components_join (lead_of_not_mem h.1 hdot), components_eq ⟨s⟩,
    lead_of_not_mem h.1 hdot, segmentComponents, Bytes.splitOn_of_not_mem h.1]
  simp [h.2]

theorem push_empty {n : Bytes} (h : slash ∉ n) : push ⟨[]⟩ n = ⟨n⟩ := by
  rw [push, join, isAbsolute_of_not_mem h]
  rfl

theorem push_eq {p : Path} {n : Bytes} (h : p.bytes ≠ []) (k : slash ∉ n) : p.push n
    = ⟨p.bytes ++ if p.bytes.getLast? = some slash then n else slash :: n⟩ := by
  rw [push, join, isAbsolute_of_not_mem k, if_neg Bool.false_ne_true]
  simp only [h, false_or]
  split <;> rfl

theorem push_bytes {p : Path} {n : Bytes} (h : p.bytes ≠ []) (k : slash ∉ n) :
    ∃ s, (p.push n).bytes = s ++ slash :: n ∧ (p.bytes = s ∨ p.bytes = s ++ [slash]) := by
  rw [push_eq h k]
  split
  next hend =>
    obtain ⟨s, hs⟩ := List.getLast?_eq_some_iff.mp hend
    exact ⟨s, by simp [hs], .inr hs⟩
  · exact ⟨p.bytes, rfl, .inl rfl⟩

theorem isAbsolute_push {p : Path} {n : Bytes} (h : slash ∉ n) :
    (p.push n).isAbsolute = p.isAbsolute := by
  obtain ⟨bytes⟩ := p
  cases bytes with
  | nil =>
    rw [push_empty h, isAbsolute_of_not_mem h]
    rfl
  | cons b s =>
    rw [push_eq (List.cons_ne_nil b s) h]
    rfl

theorem join_ne_nil (p : Path) {q : Path} (h : q.bytes ≠ []) : (p.join q).bytes ≠ [] := by
  rw [join]
  split
  · exact h
  · split <;> simp [h]

theorem push_ne_nil (p : Path) {n : Bytes} (h : n ≠ []) : (p.push n).bytes ≠ [] :=
  join_ne_nil p h

theorem isAbsolute_join {p q : Path} (h : q.isAbsolute = false) (k : p.bytes ≠ []) :
    (p.join q).isAbsolute = p.isAbsolute := by
  obtain ⟨bytes⟩ := p
  cases bytes with
  | nil => exact absurd rfl k
  | cons b s =>
    rw [join, h, if_neg Bool.false_ne_true]
    split <;> rfl

theorem join_eq (p : Path) : ∃ s, ∀ q : Path, q.isAbsolute = false → p.join q = ⟨s ++ q.bytes⟩ := by
  by_cases hp : p.bytes = [] ∨ p.bytes.getLast? = some slash
  · refine ⟨p.bytes, fun q hq => ?_⟩
    rw [join, hq, if_neg Bool.false_ne_true, if_pos hp]
  · refine ⟨p.bytes ++ [slash], fun q hq => ?_⟩
    rw [join, hq, if_neg Bool.false_ne_true, if_neg hp, List.append_assoc]
    rfl

theorem join_join (p : Path) {q r : Path} (hq : q.bytes ≠ []) (hr : r.isAbsolute = false) :
    p.join (q.join r) = (p.join q).join r := by
  cases habs : q.isAbsolute with
  | true =>
    have hjoin := (isAbsolute_join hr hq).trans habs
    rw [join, if_pos hjoin, join.eq_def p q, if_pos habs]
  | false =>
    obtain ⟨s, hs⟩ := p.join_eq
    have hlast : (s ++ q.bytes).getLast? = q.bytes.getLast? := by
      rw [List.getLast?_append, List.getLast?_eq_some_getLast hq]
      rfl
    rw [hs _ ((isAbsolute_join hr hq).trans habs), hs q habs, join, join, hr]
    simp only [Bool.false_eq_true, if_false, hq, List.append_eq_nil_iff, and_false, false_or, hlast]
    split <;> simp

theorem join_assoc {p q r : Path} (hq : q.bytes ≠ []) :
    p.join (q.join r) = (p.join q).join r := by
  by_cases hr : r.isAbsolute = true
  · simp only [join, if_pos hr]
  · exact join_join p hq (Bool.eq_false_iff.mpr hr)

theorem components_push_parent (p : Path) :
    (p.push [dot, dot]).components = p.components ++ [.parent] := by
  rw [push, components_join (by decide)]
  congr 1

theorem mem_segmentComponents {s : Bytes} {c : Component} (h : c ∈ segmentComponents s) :
    c = .parent ∨ ∃ t, IsName t ∧ c = .name t := by
  obtain ⟨t, ht, hc⟩ := List.mem_filterMap.mp h
  rcases Component.ofSegment?_eq_some hc with rfl | rfl
  · exact .inl rfl
  · exact .inr ⟨t, ⟨Bytes.not_mem_of_mem_splitOn ht, hc⟩, rfl⟩

theorem lead_eq_of_components {p q : Path} (h : p.components = q.components) :
    p.lead = q.lead ∧ segmentComponents p.bytes = segmentComponents q.bytes := by
  have no {p : Path} {c : Component} {s : Bytes} (hlead : p.lead = some c) :
      c ∉ segmentComponents s := by
    intro hc
    rcases lead_eq_some hlead with rfl | rfl <;>
      rcases mem_segmentComponents hc with h | ⟨t, -, h⟩ <;> cases h
  rw [components_eq, components_eq q] at h
  cases hp : p.lead with
  | none =>
    cases hq : q.lead with
    | none =>
      rw [hp, hq] at h
      exact ⟨rfl, h⟩
    | some c =>
      rw [hp, hq] at h
      have hcons : segmentComponents p.bytes = c :: segmentComponents q.bytes := h
      exact absurd (hcons ▸ List.mem_cons_self) (no hq)
  | some c =>
    cases hq : q.lead with
    | none =>
      rw [hp, hq] at h
      have hcons : c :: segmentComponents p.bytes = segmentComponents q.bytes := h
      exact absurd (hcons ▸ List.mem_cons_self) (no hp)
    | some d =>
      rw [hp, hq] at h
      have hcons : c :: segmentComponents p.bytes = d :: segmentComponents q.bytes := h
      obtain ⟨rfl, hsegments⟩ := List.cons.inj hcons
      exact ⟨rfl, hsegments⟩

theorem isAbsolute_iff_lead {p : Path} : p.isAbsolute ↔ p.lead = some .root := by
  rw [lead]
  split
  next h => simp [h]
  next h =>
    simp only [h]
    split <;> simp

theorem isAbsolute_congr {p q : Path} (h : p.lead = q.lead) : p.isAbsolute = q.isAbsolute := by
  rw [Bool.eq_iff_iff, isAbsolute_iff_lead, isAbsolute_iff_lead, h]

theorem components_join_congr {p q r : Path} (h : q.components = r.components) :
    (p.join q).components = (p.join r).components := by
  obtain ⟨hlead, hsegments⟩ := lead_eq_of_components h
  have habs : q.isAbsolute = r.isAbsolute := isAbsolute_congr hlead
  cases hq : q.isAbsolute with
  | true =>
    rw [join, if_pos hq, join, if_pos (habs ▸ hq)]
    exact h
  | false =>
    have hr : r.isAbsolute = false := habs ▸ hq
    by_cases hp : p.bytes = []
    · have hp' : p = ⟨[]⟩ := congrArg Path.mk hp
      rw [hp', join, hq, join, hr]
      exact h
    · rw [components_join_segments hq hp, components_join_segments hr hp, hsegments]

theorem isName_of_mem {p : Path} {s : Bytes} (h : .name s ∈ p.components) : IsName s := by
  have hlead : .name s ∉ p.lead.toList := by
    rw [Option.mem_toList]
    intro hs
    rcases lead_eq_some hs with hs | hs <;> cases hs
  rw [components_eq] at h
  obtain hc | ⟨t, ht, hc⟩ := mem_segmentComponents ((List.mem_append.mp h).resolve_left hlead)
  · cases hc
  · cases hc
    exact ht

theorem isName_of_components {p : Path} {cs : List Component} {names : List Bytes}
    (h : p.components = cs ++ names.map .name) : ∀ s ∈ names, IsName s := by
  intro s hs
  apply isName_of_mem (p := p)
  rw [h]
  exact List.mem_append_right _ (List.mem_map_of_mem hs)

def pushAll (p : Path) (names : List Bytes) : Path := names.foldl push p

@[simp] theorem pushAll_nil (p : Path) : p.pushAll [] = p := rfl

@[simp] theorem pushAll_cons (p : Path) (s : Bytes) (names : List Bytes) :
    p.pushAll (s :: names) = (p.push s).pushAll names := rfl

@[simp] theorem pushAll_append (p : Path) (names more : List Bytes) :
    p.pushAll (names ++ more) = (p.pushAll names).pushAll more := List.foldl_append

theorem components_pushAll {names : List Bytes} (h : ∀ s ∈ names, IsName s) (p : Path) :
    (p.pushAll names).components = p.components ++ names.map .name := by
  induction names generalizing p with
  | nil => simp
  | cons s names ih =>
    have hs := h s (by simp)
    rw [pushAll_cons, ih (fun t ht => h t (List.mem_cons_of_mem s ht)), components_push hs]
    simp

theorem isAbsolute_pushAll {p : Path} {names : List Bytes} (h : ∀ s ∈ names, IsName s) :
    (p.pushAll names).isAbsolute = p.isAbsolute := by
  induction names generalizing p with
  | nil => rfl
  | cons s names ih =>
    rw [pushAll_cons, ih fun t ht => h t (List.mem_cons_of_mem s ht),
      isAbsolute_push (h s List.mem_cons_self).1]

theorem join_pushAll {p q : Path} {names : List Bytes} (hq : q.bytes ≠ [])
    (hnames : ∀ n ∈ names, IsName n) : p.join (q.pushAll names) = (p.join q).pushAll names := by
  induction names generalizing q with
  | nil => rfl
  | cons n ns ih =>
    obtain ⟨hn, hns⟩ := List.forall_mem_cons.mp hnames
    have hne : n ≠ [] := (Component.ofSegment?_eq_name_iff.mp hn.2).2.1
    rw [pushAll_cons, pushAll_cons, ih (q.push_ne_nil hne) hns, push,
      join_join p hq (isAbsolute_of_not_mem hn.1)]
    rfl

theorem join_pushAll_empty (p : Path) {names : List Bytes} (hne : names ≠ [])
    (hnames : ∀ n ∈ names, IsName n) : p.join (pushAll ⟨[]⟩ names) = p.pushAll names := by
  obtain ⟨n, ns, rfl⟩ := List.exists_cons_of_ne_nil hne
  obtain ⟨hn, hns⟩ := List.forall_mem_cons.mp hnames
  have hne : n ≠ [] := (Component.ofSegment?_eq_name_iff.mp hn.2).2.1
  rw [pushAll_cons, pushAll_cons, push_empty hn.1, join_pushAll hne hns]
  rfl

theorem exists_getLast?_join {names : List Bytes} (hne : names ≠ [])
    (hnames : ∀ n ∈ names, IsName n) :
    ∃ c, (Bytes.join slash names).getLast? = some c ∧ c ≠ slash := by
  have hlast (n : Bytes) (hn : IsName n) : ∃ c, n.getLast? = some c ∧ c ≠ slash := by
    have hne : n ≠ [] := (Component.ofSegment?_eq_name_iff.mp hn.2).2.1
    exact ⟨n.getLast hne, List.getLast?_eq_some_getLast hne,
      fun hslash => hn.1 (hslash ▸ List.getLast_mem hne)⟩
  cases names using List.reverseRecOn with
  | nil => exact absurd rfl hne
  | append_singleton ns n =>
    obtain ⟨c, hc, hslash⟩ := hlast n (hnames n (by simp))
    refine ⟨c, ?_, hslash⟩
    by_cases hns : ns = []
    · rwa [hns]
    · rw [Bytes.join_append hns (by simp), List.getLast?_append, List.getLast?_cons]
      simp [Bytes.join, hc]

theorem pushAll_empty {names : List Bytes} (hnames : ∀ n ∈ names, IsName n) :
    pushAll ⟨[]⟩ names = ⟨Bytes.join slash names⟩ := by
  induction names using List.reverseRecOn with
  | nil => rfl
  | append_singleton ns n ih =>
    rw [List.forall_mem_append, List.forall_mem_singleton] at hnames
    obtain ⟨hns, hn⟩ := hnames
    rw [pushAll_append, ih hns, pushAll_cons, pushAll_nil]
    by_cases hempty : ns = []
    · rw [hempty]
      exact push_empty hn.1
    · obtain ⟨c, hc, hslash⟩ := exists_getLast?_join hempty hns
      have hend : (Bytes.join slash ns).getLast? ≠ some slash := by simpa [hc] using hslash
      have hne : Bytes.join slash ns ≠ [] := by
        intro h
        simp [h] at hc
      rw [push_eq hne hn.1, if_neg hend, Bytes.join_append hempty (by simp)]
      rfl

theorem isBlankSegment_iff {s : Bytes} : isBlankSegment s ↔ ofSegment? s = none := by
  rw [isBlankSegment, Option.isNone_iff_eq_none]

theorem trimEnd_append {ws : List Bytes} {s : Bytes} :
    trimEnd (ws ++ [s]) = if isBlankSegment s then trimEnd ws else ws ++ [s] := by
  rw [trimEnd, trimEnd, List.reverse_concat, List.dropWhile_cons]
  split <;> simp

theorem filterMap_trimEnd (ws : List Bytes) :
    (trimEnd ws).filterMap ofSegment? = ws.filterMap ofSegment? := by
  induction ws using List.reverseRecOn with
  | nil => rfl
  | append_singleton ws s ih =>
    rw [trimEnd_append]
    split
    next h => simp [ih, isBlankSegment_iff.mp h]
    · rfl

theorem trimEnd_isPrefix (ws : List Bytes) : trimEnd ws <+: ws := by
  induction ws using List.reverseRecOn with
  | nil => exact List.nil_prefix
  | append_singleton ws s ih =>
    rw [trimEnd_append]
    split
    · exact ih.trans (List.prefix_append ws [s])
    · exact List.prefix_rfl

theorem trimEnd_cases (ws : List Bytes) :
    trimEnd ws = [] ∨ ∃ vs s c, trimEnd ws = vs ++ [s] ∧ ofSegment? s = some c := by
  induction ws using List.reverseRecOn with
  | nil => exact .inl rfl
  | append_singleton ws s ih =>
    rw [trimEnd_append]
    split
    · exact ih
    next h =>
      rw [isBlankSegment_iff] at h
      obtain ⟨c, hc⟩ := Option.ne_none_iff_exists'.mp h
      exact .inr ⟨ws, s, c, rfl, hc⟩

theorem isAbsolute_iff {p : Path} :
    p.isAbsolute ↔ ∃ w ws, p.bytes.splitOn slash = [] :: w :: ws := by
  obtain ⟨bytes⟩ := p
  cases bytes with
  | nil => simp [isAbsolute, Bytes.splitOn]
  | cons b s =>
    simp only [isAbsolute, List.head?_cons, Bytes.splitOn]
    cases h : Bytes.splitOn slash s with
    | nil => exact absurd h (Bytes.splitOn_ne_nil slash s)
    | cons w ws => by_cases hb : b = slash <;> simp [hb]

theorem lead_join {ws : List Bytes} (h : ∀ w ∈ ws, slash ∉ w) (hdot : ws.head? ≠ some [dot])
    (habs : ∀ v vs, ws ≠ [] :: v :: vs) : lead ⟨Bytes.join slash ws⟩ = none := by
  by_cases hws : ws = []
  · rw [hws]
    rfl
  · rw [lead_eq_none_iff, Bytes.splitOn_join h hws]
    refine ⟨?_, hdot⟩
    rw [Bool.eq_false_iff]
    intro hjoin
    obtain ⟨v, vs, hv⟩ := isAbsolute_iff.mp hjoin
    rw [Bytes.splitOn_join h hws] at hv
    exact habs v vs hv

theorem head?_of_isPrefix {us vs : List Bytes} {w : Bytes} (h : us <+: vs) (k : us.head? = some w) :
    vs.head? = some w := by
  obtain ⟨rest, rfl⟩ := h
  rw [List.head?_append, k]
  rfl

theorem lead_join_of_isPrefix {p : Path} {ws : List Bytes} (h : p.lead = none)
    (k : ws <+: p.bytes.splitOn slash) : lead ⟨Bytes.join slash ws⟩ = none := by
  obtain ⟨habs, hdot⟩ := lead_eq_none_iff.mp h
  obtain ⟨rest, hrest⟩ := k
  apply lead_join
  · intro w hw
    exact Bytes.not_mem_of_mem_splitOn (hrest ▸ List.mem_append_left rest hw)
  · intro hhead
    exact hdot (head?_of_isPrefix ⟨rest, hrest⟩ hhead)
  · intro v vs hws
    rw [Bool.eq_false_iff] at habs
    exact habs (isAbsolute_iff.mpr ⟨v, vs ++ rest, by rw [← hrest, hws]; rfl⟩)

theorem components_join_of_isPrefix {p : Path} {ws : List Bytes} (h : p.lead = none)
    (k : ws <+: p.bytes.splitOn slash) :
    components ⟨Bytes.join slash ws⟩ = ws.filterMap ofSegment? := by
  rw [components_eq, lead_join_of_isPrefix h k, segmentComponents]
  cases ws with
  | nil => rfl
  | cons w ws =>
    rw [Bytes.splitOn_join (fun v hv => Bytes.not_mem_of_mem_splitOn (k.subset hv)) (by simp)]
    rfl

theorem parent?_of_lead_none {p : Path} (h : p.lead = none) (k : p.components ≠ []) :
    ∃ q, p.parent? = some q ∧ q.lead = none ∧ q.components = p.components.dropLast := by
  have hp : p.components = (trimEnd (p.bytes.splitOn slash)).filterMap ofSegment? := by
    rw [filterMap_trimEnd, components_eq, h]
    rfl
  have hbody : p.body = p.bytes.splitOn slash := by rw [body, h]
  obtain hnil | ⟨vs, s, c, hvs, hc⟩ := trimEnd_cases (p.bytes.splitOn slash)
  · rw [hp, hnil] at k
    exact absurd rfl k
  · have hprefix : trimEnd vs <+: p.bytes.splitOn slash :=
      (trimEnd_isPrefix vs).trans ((List.prefix_append vs [s]).trans (hvs ▸ trimEnd_isPrefix _))
    refine ⟨⟨Bytes.join slash (trimEnd vs)⟩, ?_, lead_join_of_isPrefix h hprefix, ?_⟩
    · rw [parent?, h, hbody, hvs]
      cases vs with
      | nil => rfl
      | cons v vs =>
        change some (respell none (trimEnd (v :: vs ++ [s]).dropLast)) = _
        rw [List.dropLast_concat, respell]
    · rw [components_join_of_isPrefix h hprefix, filterMap_trimEnd, hp, hvs]
      simp [hc]

theorem dropNames_suffix (n : Nat) (ws : List Bytes) : dropNames n ws <:+ ws := by
  induction ws generalizing n with
  | nil => cases n <;> exact List.suffix_rfl
  | cons w ws ih =>
    cases n with
    | zero => exact List.suffix_rfl
    | succ n =>
      rw [dropNames]
      split
      · exact (ih (n + 1)).trans (List.suffix_cons w ws)
      · exact (ih n).trans (List.suffix_cons w ws)

theorem body_suffix (p : Path) : p.body <:+ p.bytes.splitOn slash := by
  rw [body]
  split
  · exact List.tail_suffix _
  · exact List.suffix_rfl

theorem lead_join_trim {ws : List Bytes} (h : ∀ w ∈ ws, slash ∉ w) :
    lead ⟨Bytes.join slash (trimEnd (trimStart ws))⟩ = none := by
  have hfirst : ∀ w, (trimEnd (trimStart ws)).head? = some w → isBlankSegment w = false := by
    intro w hw
    have hnot := List.head?_dropWhile_not isBlankSegment ws
    rw [← trimStart, head?_of_isPrefix (trimEnd_isPrefix _) hw] at hnot
    simpa using hnot
  apply lead_join
  · intro w hw
    exact h w ((List.dropWhile_sublist _).subset ((trimEnd_isPrefix _).subset hw))
  · intro hdot
    cases hfirst [dot] hdot
  · intro v vs hnil
    cases hfirst [] (by rw [hnil]; rfl)

theorem lead_of_stripPrefix? {p base q : Path} (h : p.stripPrefix? base = some q)
    (k : base.components ≠ []) : q.lead = none := by
  rw [stripPrefix?, if_neg k] at h
  split at h
  · cases h
    apply lead_join_trim
    intro w hw
    exact Bytes.not_mem_of_mem_splitOn
      (p.body_suffix.subset ((dropNames_suffix _ _).subset hw))
  · cases h

theorem getLast?_join (p : Path) {q : Path} (hq : q.bytes ≠ []) :
    (p.join q).bytes.getLast? = q.bytes.getLast? := by
  by_cases habs : q.isAbsolute = true
  · rw [join, if_pos habs]
  · obtain ⟨s, hs⟩ := p.join_eq
    rw [hs q (Bool.eq_false_iff.mpr habs), List.getLast?_append_of_ne_nil s hq]

theorem getLast?_of_join_eq_self {q r : Path} (hq : q.bytes ≠ []) (hr : r.isAbsolute = false)
    (h : q.join r = q) : q.bytes.getLast? = some slash := by
  by_contra hlast
  rw [join, hr, if_neg Bool.false_ne_true, if_neg (not_or.mpr ⟨hq, hlast⟩)] at h
  have hlength := congrArg (fun p : Path => p.bytes.length) h
  simp at hlength

theorem pushAll_injective {p : Path} {ns ms : List Bytes} (hns : ∀ n ∈ ns, IsName n)
    (hms : ∀ m ∈ ms, IsName m) (h : p.pushAll ns = p.pushAll ms) : ns = ms := by
  have hcomponents := congrArg components h
  rw [components_pushAll hns, components_pushAll hms] at hcomponents
  exact Component.names_injective (List.append_cancel_left hcomponents)

theorem dot_not_mem_extension {p : Path} {s : Bytes} (h : p.extension? = some s) : dot ∉ s := by
  obtain ⟨name, -, hname⟩ := Option.bind_eq_some_iff.mp h
  have hlast : s ∈ (name.splitOn dot).reverse := by
    rw [extensionOf?] at hname
    split at hname
    · cases hname
    · cases hname
    · cases hname
    next heq =>
      cases hname
      rw [heq]
      exact List.mem_cons_self
  exact Bytes.not_mem_of_mem_splitOn (List.mem_reverse.mp hlast)

def withExtension (s : Bytes) : Path := ⟨97 :: dot :: s⟩

theorem extension?_withExtension {s : Bytes} (hslash : slash ∉ s) (hdot : dot ∉ s) :
    (withExtension s).extension? = some s := by
  have hname : IsName (97 :: dot :: s) := by
    refine ⟨?_, Component.ofSegment?_eq_name_iff.mpr ?_⟩
    · simpa [slash, dot] using hslash
    · simp [dot]
  have hsplit : Bytes.splitOn dot (97 :: dot :: s) = [[97], s] := by
    rw [← Bytes.splitOn_of_not_mem hdot]
    exact Bytes.splitOn_append dot [97] s
  have hfile : (withExtension s).fileName? = some (97 :: dot :: s) := by
    have hpushed := components_push hname ⟨[]⟩
    rw [push_empty hname.1] at hpushed
    rw [fileName?, withExtension, hpushed, List.getLast?_concat]
  rw [extension?, hfile, Option.bind_some, extensionOf?, hsplit]
  rfl

end Path

end ChunkWatch
