import TieredCalculus.Path
import TieredCalculus.SortedEntries

/-! # Maps keyed by path

A finite map from paths to values, kept as a list of entries in ascending order of
their texts, so that every traversal visits the names in that order.
-/

namespace TieredCalculus

structure PathMap (β : Type) where
  entries : List (Path × β)
  sorted : entries.Pairwise fun a b => a.1 < b.1

namespace PathMap

variable {β γ : Type}

def empty : PathMap β := ⟨[], List.Pairwise.nil⟩

instance : Inhabited (PathMap β) := ⟨empty⟩

instance : EmptyCollection (PathMap β) := ⟨empty⟩

def get? (m : PathMap β) (p : Path) : Option β := SortedEntries.find? p m.entries

def contains (m : PathMap β) (p : Path) : Bool := (m.get? p).isSome

def keys (m : PathMap β) : List Path := m.entries.map (·.1)

def values (m : PathMap β) : List β := m.entries.map (·.2)

def insert (m : PathMap β) (p : Path) (v : β) : PathMap β :=
  ⟨SortedEntries.insert p v m.entries, SortedEntries.pairwise_insert Path.lt_trans
    Path.lt_of_not_lt_of_lt m.sorted⟩

/-- The map `m` overridden by a list of entries, the last of a path taking effect. -/
def insertAll (m : PathMap β) (l : List (Path × β)) : PathMap β :=
  l.foldl (fun m e => m.insert e.1 e.2) m

def ofList (l : List (Path × β)) : PathMap β := empty.insertAll l

def map (f : β → γ) (m : PathMap β) : PathMap γ where
  entries := m.entries.map fun e => (e.1, f e.2)
  sorted := List.pairwise_map.2 m.sorted

def filterKeys (keep : Path → Bool) (m : PathMap β) : PathMap β where
  entries := m.entries.filter fun e => keep e.1
  sorted := m.sorted.filter _

end PathMap

end TieredCalculus
