import ChunkWatch.Watch.Source

namespace ChunkWatch.Watch.Source

variable {s t : Source} {fs : FileSystem} {dir : Path} {dirs : List Path} {e : WatchError}

def takes (s : Source) (fs : FileSystem) (dir : Path) : Bool :=
  s.closes == 0 && (s.refusal? fs dir).isNone

theorem watch_of_takes (h : s.takes fs dir) :
    s.watch fs dir =
      ({ s with calls := s.calls ++ [dir], registered := s.registered ++ [dir] }, none) := by
  rw [takes, Bool.and_eq_true, beq_iff_eq, Option.isNone_iff_eq_none] at h
  rw [watch]
  dsimp only
  rw [if_pos h.1, h.2]

theorem watch_of_not_takes (h : s.takes fs dir = false) :
    ∃ e, s.watch fs dir = ({ s with calls := s.calls ++ [dir] }, some e) := by
  rw [watch]
  dsimp only
  split
  · exact ⟨_, rfl⟩
  next hnone =>
    split at hnone
    next hopen => simp [takes, hopen, hnone] at h
    next hclosed => cases hnone

theorem snd_watch_with (s : Source) (calls registered : List Path) :
    ({ s with calls, registered }.watch fs dir).2 = (s.watch fs dir).2 := by
  rw [watch, watch]
  dsimp only
  generalize (if s.closes = 0 then s.refusal? fs dir else some "source is closed") = refusal?
  cases refusal? <;> rfl

theorem watchAll_of_takes (h : ∀ d ∈ dirs, s.takes fs d) : s.watchAll fs dirs =
    ({ s with calls := s.calls ++ dirs, registered := s.registered ++ dirs }, none) := by
  induction dirs generalizing s with
  | nil => rw [watchAll, List.append_nil, List.append_nil]
  | cons d dirs ih =>
    obtain ⟨hd, hdirs⟩ := List.forall_mem_cons.mp h
    have hrest := ih (s := { s with
      calls := s.calls ++ [d], registered := s.registered ++ [d] }) hdirs
    rw [List.append_assoc, List.append_assoc] at hrest
    rw [watchAll, watch_of_takes hd]
    exact hrest

theorem watchAll_of_refused {before after : List Path} (h : ∀ d ∈ before, s.takes fs d)
    (hrefused : (s.watch fs dir).2 = some e) : s.watchAll fs (before ++ dir :: after) =
      ({ s with calls := s.calls ++ (before ++ [dir]), registered := s.registered ++ before },
        some e) := by
  induction before generalizing s with
  | nil =>
    cases htakes : s.takes fs dir with
    | true =>
      rw [watch_of_takes htakes] at hrefused
      cases hrefused
    | false =>
      obtain ⟨e', hwatch⟩ := watch_of_not_takes htakes
      rw [hwatch] at hrefused
      cases hrefused
      rw [List.nil_append, List.nil_append, watchAll, hwatch, List.append_nil]
  | cons d before ih =>
    obtain ⟨hd, hbefore⟩ := List.forall_mem_cons.mp h
    have hrest := ih (s := { s with
      calls := s.calls ++ [d], registered := s.registered ++ [d] }) hbefore
      ((s.snd_watch_with _ _).trans hrefused)
    rw [List.append_assoc, List.append_assoc] at hrest
    rw [List.cons_append, watchAll, watch_of_takes hd]
    exact hrest

theorem all_taken_or_refused (s : Source) (fs : FileSystem) (dirs : List Path) :
    (∀ d ∈ dirs, s.takes fs d) ∨ ∃ before d after e, dirs = before ++ d :: after ∧
      (∀ p ∈ before, s.takes fs p) ∧ (s.watch fs d).2 = some e := by
  cases hfind : dirs.find? fun d => !s.takes fs d with
  | none => exact .inl fun d hd => by simpa using List.find?_eq_none.mp hfind d hd
  | some d =>
    obtain ⟨hd, before, after, rfl, hbefore⟩ := List.find?_eq_some_iff_append.mp hfind
    obtain ⟨e, hwatch⟩ := watch_of_not_takes (Bool.not_eq_true' _ ▸ hd)
    exact .inr ⟨before, d, after, e, rfl, fun p hp => by simpa using hbefore p hp,
      congrArg Prod.snd hwatch⟩

theorem eq_of_watchAll (h : s.watchAll fs dirs = (t, none)) :
    t = { s with calls := s.calls ++ dirs, registered := s.registered ++ dirs } := by
  rcases s.all_taken_or_refused fs dirs with htaken | ⟨before, d, after, e, rfl, htaken, hrefused⟩
  · rw [watchAll_of_takes htaken] at h
    cases h
    rfl
  · rw [watchAll_of_refused htaken hrefused] at h
    cases h

end ChunkWatch.Watch.Source
