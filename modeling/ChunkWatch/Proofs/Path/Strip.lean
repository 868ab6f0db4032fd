import ChunkWatch.Proofs.Path.Order
import ChunkWatch.Proofs.Path.Spelling

namespace ChunkWatch.Path

open Component (IsName ofSegment?)

variable {p q base : Path}

theorem startsWith_iff : p.startsWith base ↔ base.components <+: p.components :=
  List.isPrefixOf_iff_prefix

theorem startsWith_of_same (h : p.same base) : p.startsWith base :=
  startsWith_iff.mpr ⟨[], by rw [List.append_nil, same_iff.mp h]⟩

theorem components_ne_nil (h : p.bytes ≠ []) : p.components ≠ [] := by
  obtain ⟨bytes⟩ := p
  obtain ⟨b, s, rfl⟩ := List.exists_cons_of_ne_nil h
  rw [components_eq]
  cases hlead : lead ⟨b :: s⟩ with
  | some c => exact List.cons_ne_nil c _
  | none =>
    -- The first segment is neither empty nor a dot.
    obtain ⟨habs, hdot⟩ := lead_eq_none_iff.mp hlead
    have hb : b ≠ slash := by simpa [isAbsolute] using habs
    obtain ⟨w, ws, hws⟩ := Bytes.splitOn_cons_of_ne hb s
    rw [hws, List.head?_cons] at hdot
    have hnot : ¬(b :: w = [] ∨ b :: w = [dot]) := by
      simpa using fun hb hw => hdot (by rw [hb, hw])
    have hsome : ofSegment? (b :: w) ≠ none := by
      rw [ofSegment?, if_neg hnot]
      split <;> simp
    obtain ⟨c, hc⟩ := Option.ne_none_iff_exists'.mp hsome
    rw [segmentComponents, hws, List.filterMap_cons_some hc]
    simp

theorem lead_eq_of_startsWith (h : p.startsWith base) (k : base.bytes ≠ []) :
    base.lead = p.lead ∧ segmentComponents base.bytes <+: segmentComponents p.bytes := by
  have no {r : Path} {c : Component} {s : Bytes} (hlead : r.lead = some c) :
      c ∉ segmentComponents s := by
    intro hc
    rcases lead_eq_some hlead with rfl | rfl <;>
      rcases mem_segmentComponents hc with h | ⟨t, -, h⟩ <;> cases h
  have hne := components_ne_nil k
  rw [startsWith_iff, components_eq, components_eq p] at h
  rw [components_eq] at hne
  cases hbase : base.lead with
  | none =>
    rw [hbase] at h hne
    cases hp : p.lead with
    | none =>
      rw [hp] at h
      exact ⟨rfl, h⟩
    | some c =>
      rw [hp] at h
      obtain ⟨d, ds, hds⟩ := List.exists_cons_of_ne_nil hne
      rw [hds] at h
      obtain ⟨rfl, -⟩ := List.cons_prefix_cons.mp h
      have hmem : d ∈ segmentComponents base.bytes := by
        rw [show segmentComponents base.bytes = d :: ds from hds]
        exact List.mem_cons_self
      exact absurd hmem (no hp)
  | some c =>
    rw [hbase] at h
    cases hp : p.lead with
    | none =>
      rw [hp] at h
      exact absurd (h.subset List.mem_cons_self) (no hbase)
    | some d =>
      rw [hp] at h
      obtain ⟨rfl, hsegments⟩ := List.cons_prefix_cons.mp h
      exact ⟨rfl, hsegments⟩

theorem filterMap_dropNames (n : Nat) (ws : List Bytes) :
    (dropNames n ws).filterMap ofSegment? = (ws.filterMap ofSegment?).drop n := by
  induction ws generalizing n with
  | nil => cases n <;> simp [dropNames]
  | cons w ws ih =>
    cases n with
    | zero => rfl
    | succ n =>
      rw [dropNames]
      split
      next h =>
        rw [ih, List.filterMap_cons_none (isBlankSegment_iff.mp h)]
      next h =>
        rw [isBlankSegment_iff] at h
        obtain ⟨c, hc⟩ := Option.ne_none_iff_exists'.mp h
        rw [ih, List.filterMap_cons_some hc, List.drop_succ_cons]

theorem filterMap_trimStart (ws : List Bytes) :
    (trimStart ws).filterMap ofSegment? = ws.filterMap ofSegment? := by
  induction ws with
  | nil => rfl
  | cons w ws ih =>
    rw [trimStart, List.dropWhile_cons]
    split
    next h =>
      rw [List.filterMap_cons_none (isBlankSegment_iff.mp h)]
      exact ih
    · rfl

theorem trimStart_dropNames {n : Nat} {ws vs : List Bytes}
    (h : (ws.filterMap ofSegment?).length = n) :
    trimStart (dropNames n (ws ++ vs)) = trimStart vs := by
  induction ws generalizing n with
  | nil =>
    subst h
    cases vs <;> rfl
  | cons w ws ih =>
    cases hc : ofSegment? w with
    | none =>
      have hblank : isBlankSegment w := isBlankSegment_iff.mpr hc
      rw [List.filterMap_cons_none hc] at h
      cases n with
      | zero =>
        rw [List.cons_append, dropNames, trimStart, List.dropWhile_cons_of_pos hblank, ← ih h]
        cases ws <;> cases vs <;> rfl
      | succ n =>
        rw [List.cons_append, dropNames, if_pos hblank]
        exact ih h
    | some c =>
      rw [List.filterMap_cons_some hc, List.length_cons] at h
      subst h
      rw [List.cons_append, dropNames, if_neg (by rw [isBlankSegment_iff, hc]; simp)]
      exact ih rfl

theorem components_trim {ws : List Bytes} (h : ∀ w ∈ ws, slash ∉ w) :
    components ⟨Bytes.join slash (trimEnd (trimStart ws))⟩ = ws.filterMap ofSegment? := by
  have hall : ∀ w ∈ trimEnd (trimStart ws), slash ∉ w := fun w hw =>
    h w ((List.dropWhile_sublist _).subset ((trimEnd_isPrefix _).subset hw))
  have hkept : (trimEnd (trimStart ws)).filterMap ofSegment? = ws.filterMap ofSegment? :=
    (filterMap_trimEnd _).trans (filterMap_trimStart ws)
  rw [← hkept, components_eq, lead_join_trim h, segmentComponents]
  cases hws : trimEnd (trimStart ws) with
  | nil => rfl
  | cons w vs =>
    rw [hws] at hall
    rw [Bytes.splitOn_join hall (List.cons_ne_nil w vs)]
    rfl

theorem components_of_stripPrefix? (h : p.stripPrefix? base = some q) (k : base.components ≠ []) :
    p.components = base.components ++ q.components := by
  have hlead := lead_of_stripPrefix? h k
  rw [stripPrefix?, if_neg k] at h
  split at h
  next hstarts =>
    cases h
    obtain ⟨rest, hrest⟩ := startsWith_iff.mp hstarts
    have hws : ∀ w ∈ dropNames (base.components.length - p.lead.toList.length) p.body,
        slash ∉ w := by
      intro w hw
      exact Bytes.not_mem_of_mem_splitOn
        (p.body_suffix.subset ((dropNames_suffix _ _).subset hw))
    have hlength : p.lead.toList.length ≤ base.components.length := by
      have hpos := List.length_pos_iff.mpr k
      cases p.lead with
      | none => simp
      | some c => exact hpos
    have hbehind : (components p).drop base.components.length
        = (p.body.filterMap ofSegment?).drop
          (base.components.length - p.lead.toList.length) := by
      rw [components.eq_def p, List.drop_append, List.drop_eq_nil_of_le hlength, List.nil_append]
    rw [components_trim hws, filterMap_dropNames, ← hbehind, ← hrest, List.drop_left]
  · cases h

theorem stripPrefix?_isSome_iff (k : base.components ≠ []) :
    (p.stripPrefix? base).isSome ↔ p.startsWith base := by
  rw [stripPrefix?, if_neg k]
  split
  next h => simp [h]
  next h => simp [h]

theorem stripPrefix?_of_components {cs : List Component} (k : base.components ≠ [])
    (h : p.components = base.components ++ cs) :
    ∃ q, p.stripPrefix? base = some q ∧ q.components = cs := by
  have hstarts : p.startsWith base := startsWith_iff.mpr ⟨cs, h.symm⟩
  obtain ⟨q, hq⟩ := Option.isSome_iff_exists.mp ((stripPrefix?_isSome_iff k).mpr hstarts)
  refine ⟨q, hq, ?_⟩
  rw [components_of_stripPrefix? hq k] at h
  exact List.append_cancel_left h

/-- The spelling without dots and empty segments at its ends. -/
def trimmed (p : Path) : Path := ⟨Bytes.join slash (trimEnd (trimStart (p.bytes.splitOn slash)))⟩

theorem segmentComponents_trimmed (p : Path) :
    segmentComponents p.trimmed.bytes = segmentComponents p.bytes := by
  have hall : ∀ w ∈ p.bytes.splitOn slash, slash ∉ w := fun w => Bytes.not_mem_of_mem_splitOn
  have hcomponents := components_trim hall
  rwa [components_eq, lead_join_trim hall] at hcomponents

theorem ne_nil_of_isAbsolute (h : p.isAbsolute) : p.bytes ≠ [] := by
  intro hnil
  rw [isAbsolute, hnil] at h
  cases h

theorem join_of_nil (h : base.bytes = []) (p : Path) : base.join p = p := by
  rw [join]
  split
  · rfl
  · rw [if_pos (.inl h), h, List.nil_append]

theorem nil_of_join (hp : p.isAbsolute = false)
    (h : (base.join p).bytes.length = p.bytes.length) : base.bytes = [] := by
  rw [join, hp, if_neg Bool.false_ne_true] at h
  split at h
  · simpa using h
  · simp at h
    omega

theorem stripPrefix?_join (hbase : base.isAbsolute) (hp : p.isAbsolute = false) :
    (base.join p).stripPrefix? base = some p.trimmed := by
  have hne := ne_nil_of_isAbsolute hbase
  have hlead : (base.join p).lead = some .root :=
    isAbsolute_iff_lead.mp ((isAbsolute_join hp hne).trans hbase)
  obtain ⟨r, hr⟩ : ∃ r, base.join p = ⟨r ++ slash :: p.bytes⟩ := by
    rw [join, hp, if_neg Bool.false_ne_true]
    split
    next h =>
      obtain ⟨r, hr⟩ := List.getLast?_eq_some_iff.mp (h.resolve_left hne)
      exact ⟨r, by rw [hr, List.append_assoc, List.singleton_append]⟩
    · exact ⟨base.bytes, rfl⟩
  obtain ⟨ws, hbody⟩ : ∃ ws, (base.join p).body = ws ++ p.bytes.splitOn slash := by
    refine ⟨(Bytes.splitOn slash r).tail, ?_⟩
    rw [body, hlead, hr]
    dsimp only
    rw [Bytes.splitOn_append, List.tail_append_of_ne_nil (Bytes.splitOn_ne_nil slash r)]
  have hcomponents := components_join_segments hp hne
  have hws : .root :: ws.filterMap ofSegment? = base.components := by
    rw [components, hlead, hbody, List.filterMap_append] at hcomponents
    exact List.append_cancel_right hcomponents
  have hstarts : (base.join p).startsWith base :=
    startsWith_iff.mpr ⟨_, (components_join_segments hp hne).symm⟩
  rw [stripPrefix?, if_neg (components_ne_nil hne), if_pos hstarts, hlead, hbody, ← hws]
  exact congrArg (fun ws => some (Path.mk (Bytes.join slash (trimEnd ws))))
    (trimStart_dropNames rfl)

theorem isBlankSegment_name {n : Bytes} (h : IsName n) : isBlankSegment n = false := by
  rw [isBlankSegment, h.2]
  rfl

theorem trimStart_names {ns : List Bytes} (h : ∀ n ∈ ns, IsName n) : trimStart ns = ns := by
  cases ns with
  | nil => rfl
  | cons n ns =>
    have hn := isBlankSegment_name (h n List.mem_cons_self)
    rw [trimStart, List.dropWhile_cons_of_neg (by simp [hn])]

theorem trimEnd_names {ns : List Bytes} (h : ∀ n ∈ ns, IsName n) : trimEnd ns = ns := by
  cases ns using List.reverseRecOn with
  | nil => rfl
  | append_singleton ns n =>
    rw [trimEnd_append, isBlankSegment_name (h n (by simp)), if_neg Bool.false_ne_true]

theorem filterMap_names {ns : List Bytes} (h : ∀ n ∈ ns, IsName n) :
    ns.filterMap ofSegment? = ns.map .name := by
  rw [← List.filterMap_eq_map]
  exact List.filterMap_congr fun n hn => (h n hn).2

theorem isAbsolute_names {ns : List Bytes} (h : ∀ n ∈ ns, IsName n) :
    isAbsolute ⟨Bytes.join slash ns⟩ = false := by
  rw [← pushAll_empty h, isAbsolute_pushAll h]
  rfl

end ChunkWatch.Path
