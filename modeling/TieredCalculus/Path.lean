/-! # Hierarchical names

A path is a list of components separated by slashes in its text, such as
`state/internal/ep`. Reading a text drops empty components, so a path never holds an
empty component or one with a slash, and two texts read as the same path when they
differ only in leading, trailing or repeated slashes.
-/

namespace TieredCalculus

/-- A component of a path is a non-empty text without a slash. -/
def IsComponent (c : String) : Prop := c ≠ "" ∧ '/' ∉ c.toList

structure Path where
  components : List String
  valid : ∀ c ∈ components, IsComponent c
  deriving DecidableEq

namespace Path

@[ext] theorem ext {p q : Path} (h : p.components = q.components) : p = q := by
  cases p
  cases q
  congr

/-! ## Reading and writing -/

/-- The pieces of a text between its slashes, empty ones included. -/
def pieces : List Char → List (List Char)
  | [] => [[]]
  | c :: cs =>
    if c = '/' then [] :: pieces cs
    else
      match pieces cs with
      | [] => [[c]]
      | p :: ps => (c :: p) :: ps

theorem slash_notMem_of_mem_pieces {cs p : List Char} (h : p ∈ pieces cs) : '/' ∉ p := by
  induction cs generalizing p with
  | nil => simp_all [pieces]
  | cons c cs ih =>
    rw [pieces] at h
    split at h
    · rcases List.mem_cons.1 h with rfl | h
      · simp
      · exact ih h
    · rename_i hc
      split at h
      · rw [List.mem_singleton.1 h, List.mem_singleton]
        exact Ne.symm hc
      · rename_i q qs hq
        rcases List.mem_cons.1 h with rfl | h
        · have := ih (p := q) (by simp [hq])
          simp [this, Ne.symm hc]
        · exact ih (by simp [hq, h])

/-- The path written in a text: its non-empty pieces between slashes. -/
def ofString (s : String) : Path where
  components := ((pieces s.toList).filter (· ≠ [])).map String.ofList
  valid := by
    intro c hc
    obtain ⟨p, hp, rfl⟩ := List.mem_map.1 hc
    obtain ⟨hm, hne⟩ := List.mem_filter.1 hp
    refine ⟨fun h => ?_, ?_⟩
    · have := congrArg String.toList h
      simp_all
    · simpa using slash_notMem_of_mem_pieces hm

instance : Coe String Path := ⟨ofString⟩

def root : Path := ⟨[], by simp⟩

instance : Inhabited Path := ⟨root⟩

def text (p : Path) : String := String.intercalate "/" p.components

instance : ToString Path := ⟨text⟩

/-! ## Structure -/

def depth (p : Path) : Nat := p.components.length

def isRoot (p : Path) : Bool := p.components.isEmpty

def first (p : Path) : String := p.components.head?.getD ""

def last (p : Path) : String := p.components.getLast?.getD ""

def drop (p : Path) (n : Nat) : Path where
  components := p.components.drop n
  valid := fun c hc => p.valid c (List.mem_of_mem_drop hc)

def tail (p : Path) : Path := p.drop 1

instance : Append Path where
  append p q :=
    ⟨p.components ++ q.components, fun c hc =>
      (List.mem_append.1 hc).elim (p.valid c) (q.valid c)⟩

@[simp] theorem components_append (p q : Path) :
    (p ++ q).components = p.components ++ q.components := rfl

def join (p : Path) (s : String) : Path := p ++ ofString s

def isUnder (p q : Path) : Bool := q.components.isPrefixOf p.components

def relativeTo? (p q : Path) : Option Path :=
  if p.isUnder q then some (p.drop q.depth) else none

/-! ## Order -/

instance : LT Path := ⟨fun p q => p.text < q.text⟩

instance : DecidableLT Path := fun p q => inferInstanceAs (Decidable (p.text < q.text))

theorem lt_irrefl (p : Path) : ¬ p < p := String.lt_irrefl p.text

theorem lt_trans {p q r : Path} (h : p < q) (h' : q < r) : p < r := String.lt_trans h h'

theorem lt_of_not_lt_of_lt {p q r : Path} (h : ¬ p < q) (h' : ¬ q < p) (hr : q < r) : p < r := by
  have heq : p.text = q.text := String.le_antisymm h' h
  change q.text < r.text at hr
  change p.text < r.text
  rwa [heq]

end Path

end TieredCalculus
