/-! # Entries in ascending order

A list of keyed entries kept in ascending order of its keys. The main statement says that
placing an entry keeps the order.
-/

namespace TieredCalculus.SortedEntries

variable {κ β : Type}

def find? [DecidableEq κ] (k : κ) (l : List (κ × β)) : Option β :=
  (l.find? fun e => e.1 = k).map (·.2)

/-- Places an entry in an ascending list, replacing the entry of the same key. -/
def insert [LT κ] [DecidableLT κ] (k : κ) (v : β) : List (κ × β) → List (κ × β)
  | [] => [(k, v)]
  | e :: r =>
    if k < e.1 then (k, v) :: e :: r
    else if e.1 < k then e :: insert k v r
    else (k, v) :: r

variable [LT κ] [DecidableLT κ]

theorem mem_insert {k : κ} {v : β} {l : List (κ × β)} {e : κ × β} (h : e ∈ insert k v l) :
    e = (k, v) ∨ e ∈ l := by
  induction l with
  | nil => simp_all [insert]
  | cons a r ih =>
    rw [insert] at h
    split at h
    · simpa using h
    · split at h
      · rcases List.mem_cons.1 h with rfl | h
        · simp
        · exact (ih h).imp id (List.mem_cons_of_mem a)
      · exact (List.mem_cons.1 h).imp id (List.mem_cons_of_mem a)

/-- Placing an entry keeps the order, when keys of which neither comes first have the same
place among the others. -/
theorem pairwise_insert (trans : ∀ {a b c : κ}, a < b → b < c → a < c)
    (same : ∀ {a b c : κ}, ¬ a < b → ¬ b < a → b < c → a < c) {k : κ} {v : β}
    {l : List (κ × β)} (h : l.Pairwise fun a b => a.1 < b.1) :
    (insert k v l).Pairwise fun a b => a.1 < b.1 := by
  induction l with
  | nil => simp [insert]
  | cons a r ih =>
    obtain ⟨ha, hr⟩ := List.pairwise_cons.1 h
    rw [insert]
    split
    · rename_i hk
      refine List.pairwise_cons.2 ⟨fun e he => ?_, h⟩
      rcases List.mem_cons.1 he with rfl | he
      · exact hk
      · exact trans hk (ha e he)
    · rename_i hk
      split
      · rename_i hk'
        refine List.pairwise_cons.2 ⟨fun e he => ?_, ih hr⟩
        rcases mem_insert he with rfl | he
        · exact hk'
        · exact ha e he
      · rename_i hk'
        exact List.pairwise_cons.2 ⟨fun e he => same hk hk' (ha e he), hr⟩

end TieredCalculus.SortedEntries
