import ChunkWatch.Language
import ChunkWatch.Language.Builtin

namespace ChunkWatch

structure Registry where
  languages : List Language
  claims : List (Extension × Nat)

namespace Registry

def empty : Registry := ⟨[], []⟩

def get? (r : Registry) (name : String) : Option Language :=
  r.languages.find? (·.name = name)

def claim (e : Extension) (i : Nat) : List (Extension × Nat) → List (Extension × Nat)
  | [] => [(e, i)]
  | (f, j) :: cs => if f = e then (e, i) :: cs else (f, j) :: claim e i cs

def add (r : Registry) (l : Language) : Registry :=
  ⟨r.languages ++ [l],
    l.spec.extensions.foldl (fun cs e => claim e r.languages.length cs) r.claims⟩

def register [Query.Analysis] (r : Registry) (s : Spec) : Except LanguageError Registry :=
  if (r.get? s.name).isSome then .error (.duplicate s.name)
  else (Language.compile s).map r.add

def registerAll [Query.Analysis] (r : Registry) : List Spec → Except LanguageError Registry
  | [] => .ok r
  | s :: ss => (r.register s).bind (registerAll · ss)

def withDefaults : Except LanguageError Registry := empty.registerAll Spec.builtin

def forExtension? (r : Registry) (e : Extension) : Option Language :=
  (r.claims.lookup e).bind (r.languages[·]?)

def forPath? (r : Registry) (p : Path) : Option Language := do
  let e ← p.extension?
  let e ← e.toString?
  r.forExtension? (Extension.normalize e)

def extensions (r : Registry) : List Extension := Text.sorted (r.claims.map Prod.fst)

end Registry

end ChunkWatch
