import ChunkWatch.Query

namespace ChunkWatch.Query

open Syntax (Grammar)

def parseChars (g : Grammar) (cs : List Char) : Except Failure (List Clause × List String) :=
  let fuel := 4 * cs.length + 8
  let r := (do Read.blanks; Read.clauses g fuel : Read (List Clause)).run ⟨cs, 0, [], []⟩
  r.map fun (clauses, r) => (clauses, r.captures)

theorem parse_ofList (g : Grammar) (cs : List Char) :
    parse g (String.ofList cs) = parseChars g cs := by
  simp [parse, parseChars]

theorem compileClauses_of_calls_eq_nil {source : String} {cs : List Clause}
    (h : ∀ c ∈ cs, c.calls = []) :
    compileClauses source cs = .ok (cs.map fun c => (.ofPattern c.pattern, [])) := by
  induction cs with
  | nil => rfl
  | cons c cs ih =>
    obtain ⟨hc, hcs⟩ := List.forall_mem_cons.mp h
    rw [compileClauses, hc, ih hcs]
    rfl

def readsAs (test : List Program → Bool) (g : Grammar) (wanted : String) (cs : List Char) : Bool :=
  match parseChars g cs with
  | .ok (clauses, captures) => clauses.all (·.calls.isEmpty) && captures.contains wanted &&
      test (clauses.map fun c => .ofPattern c.pattern)
  | .error _ => false

-- The characters are those of a literal, where the kernel need not decode it.
theorem compile_of_readsAs {test : List Program → Bool} {g : Grammar} {source wanted : String}
    {cs : List Char} (hsource : source = String.ofList cs) (h : readsAs test g wanted cs) :
    ∃ qs, compile g source wanted = .ok ⟨qs.map (·, []), wanted⟩ ∧ test qs := by
  rw [readsAs] at h
  split at h
  next clauses captures hread =>
    simp only [Bool.and_eq_true, List.all_eq_true, List.isEmpty_iff, List.contains_iff_mem] at h
    obtain ⟨⟨hcalls, hwanted⟩, htest⟩ := h
    refine ⟨_, ?_, htest⟩
    rw [compile, hsource, parse_ofList, hread]
    simp only [compileClauses_of_calls_eq_nil hcalls, bind, Except.bind, hwanted, ↓reduceIte, pure,
      Except.pure, List.map_map]
    rfl
  · cases h

end ChunkWatch.Query
