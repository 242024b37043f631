import TieredCalculus.PathMap

/-! # Names and the maps keyed by them

A path is read back from its text, so paths of which neither comes first are equal, and a map
keyed by path gives back what was placed in it last.
-/

namespace TieredCalculus

/-! ## Texts of paths -/

namespace Path

theorem pieces_eq_splitOn (cs : List Char) : pieces cs = cs.splitOn '/' := by
  induction cs with
  | nil => rfl
  | cons c cs ih =>
    rw [pieces, List.splitOn_cons_eq_if_modifyHead, ih]
    by_cases hc : c = '/'
    · simp [hc]
    · rw [if_neg hc, if_neg (by simpa using hc)]
      cases hsplit : cs.splitOn '/' with
      | nil => exact absurd hsplit (List.splitOn_ne_nil '/' cs)
      | cons p ps => rfl

theorem ofString_text (p : Path) : ofString p.text = p := by
  obtain ⟨cs, hcs⟩ := p
  apply Path.ext
  change ((pieces (String.intercalate "/" cs).toList).filter (· ≠ [])).map String.ofList = cs
  cases cs with
  | nil => rfl
  | cons c rest =>
    have hslash : ∀ q ∈ (c :: rest).map String.toList, '/' ∉ q := by
      intro q hq
      obtain ⟨d, hd, rfl⟩ := List.mem_map.1 hq
      exact (hcs d hd).2
    have hfull : ((c :: rest).map String.toList).filter (· ≠ []) =
        (c :: rest).map String.toList := by
      rw [List.filter_eq_self]
      intro q hq
      obtain ⟨d, hd, rfl⟩ := List.mem_map.1 hq
      have hne := (hcs d hd).1
      simpa using hne
    have hpieces : pieces (String.intercalate "/" (c :: rest)).toList =
        (c :: rest).map String.toList := by
      rw [String.toList_intercalate, pieces_eq_splitOn]
      exact List.splitOn_intercalate '/' hslash (by simp)
    rw [hpieces, hfull, List.map_map]
    simp [Function.comp_def]

theorem text_injective {p q : Path} (h : p.text = q.text) : p = q := by
  rw [← ofString_text p, h, ofString_text]

theorem eq_of_not_lt {p q : Path} (h : ¬ p < q) (h' : ¬ q < p) : p = q :=
  text_injective (String.le_antisymm h' h)

theorem ofString_component {c : String} (h : IsComponent c) : (ofString c).components = [c] := by
  have hself : ofString (Path.text ⟨[c], by simpa using h⟩) = ⟨[c], by simpa using h⟩ :=
    ofString_text _
  have htext : Path.text ⟨[c], by simpa using h⟩ = c := by simp [text]
  rw [htext] at hself
  rw [hself]

theorem components_join (p : Path) {c : String} (h : IsComponent c) :
    (p.join c).components = p.components ++ [c] := by
  rw [join, components_append, ofString_component h]

theorem last_join (p : Path) {c : String} (h : IsComponent c) : (p.join c).last = c := by
  rw [last, components_join p h, List.getLast?_concat, Option.getD_some]

theorem isUnder_iff {p q : Path} :
    p.isUnder q = true ↔ ∃ rest, p.components = q.components ++ rest := by
  rw [isUnder, List.isPrefixOf_iff_prefix]
  exact exists_congr fun _ => eq_comm

theorem isUnder_trans {p q r : Path} (hpq : p.isUnder q = true) (hqr : q.isUnder r = true) :
    p.isUnder r = true := by
  obtain ⟨front, hq⟩ := isUnder_iff.1 hqr
  obtain ⟨rest, hp⟩ := isUnder_iff.1 hpq
  exact isUnder_iff.2 ⟨front ++ rest, by rw [hp, hq, List.append_assoc]⟩

end Path

/-! ## Entries in ascending order -/

namespace SortedEntries

variable {κ β : Type} [DecidableEq κ]

theorem find?_cons (k : κ) (e : κ × β) (l : List (κ × β)) :
    find? k (e :: l) = if e.1 = k then some e.2 else find? k l := by
  unfold find?
  rw [List.find?_cons]
  by_cases h : e.1 = k
  · simp [h]
  · simp [h]

theorem find?_eq_none {l : List (κ × β)} {k : κ} (h : ∀ e ∈ l, e.1 ≠ k) : find? k l = none := by
  rw [find?, Option.map_eq_none_iff, List.find?_eq_none]
  intro e he
  simpa using h e he

theorem mem_of_find?_eq_some {l : List (κ × β)} {k : κ} {v : β} (h : find? k l = some v) :
    (k, v) ∈ l := by
  induction l with
  | nil => cases h
  | cons e l ih =>
    rw [find?_cons] at h
    by_cases he : e.1 = k
    · rw [if_pos he] at h
      cases h
      rw [← he]
      exact List.mem_cons_self
    · rw [if_neg he] at h
      exact List.mem_cons_of_mem e (ih h)

theorem find?_of_mem {l : List (κ × β)} (hl : (l.map (·.1)).Nodup) {e : κ × β} (h : e ∈ l) :
    find? e.1 l = some e.2 := by
  induction l with
  | nil => cases h
  | cons a l ih =>
    rw [List.map_cons, List.nodup_cons] at hl
    rw [find?_cons]
    rcases List.mem_cons.1 h with rfl | h
    · rw [if_pos rfl]
    · have hne : a.1 ≠ e.1 := fun heq => hl.1 (heq ▸ List.mem_map_of_mem h)
      rw [if_neg hne, ih hl.2 h]

variable [LT κ] [DecidableLT κ]

theorem find?_insert (linear : ∀ {a b : κ}, ¬ a < b → ¬ b < a → a = b)
    (irrefl : ∀ a : κ, ¬ a < a) (k j : κ) (v : β) (l : List (κ × β)) :
    find? j (insert k v l) = if k = j then some v else find? j l := by
  induction l with
  | nil => rw [insert, find?_cons]
  | cons e l ih =>
    rw [insert]
    by_cases h : k < e.1
    · rw [if_pos h, find?_cons]
    · rw [if_neg h]
      by_cases h' : e.1 < k
      · rw [if_pos h', find?_cons, find?_cons, ih]
        by_cases he : e.1 = j
        · have hkj : k ≠ j := fun hk => irrefl k (by rwa [he, ← hk] at h')
          rw [if_pos he, if_neg hkj, if_pos he]
        · rw [if_neg he, if_neg he]
      · rw [if_neg h', find?_cons, find?_cons, linear h h']
        by_cases he : e.1 = j
        · rw [if_pos he, if_pos he]
        · rw [if_neg he, if_neg he, if_neg he]

end SortedEntries

/-! ## Entries placed one after another -/

namespace SortedEntries

variable {κ β : Type} [LT κ] [DecidableLT κ]

theorem insert_insert (irrefl : ∀ a : κ, ¬ a < a) (k : κ) (v w : β) (l : List (κ × β)) :
    insert k v (insert k w l) = insert k v l := by
  induction l with
  | nil => simp [insert, irrefl k]
  | cons e l ih =>
    by_cases h : k < e.1
    · simp [insert, h, irrefl k]
    · by_cases h' : e.1 < k
      · simp [insert, h, h', ih]
      · simp [insert, h, h', irrefl k]

private theorem insert_comm_of_lt (trans : ∀ {a b c : κ}, a < b → b < c → a < c)
    (linear : ∀ {a b : κ}, ¬ a < b → ¬ b < a → a = b) (irrefl : ∀ a : κ, ¬ a < a) {k j : κ}
    (hlt : k < j) (v w : β) (l : List (κ × β)) :
    insert k v (insert j w l) = insert j w (insert k v l) := by
  have hjk : ¬ j < k := fun h => irrefl k (trans hlt h)
  induction l with
  | nil => simp [insert, hlt, hjk]
  | cons e l ih =>
    by_cases hk : k < e.1
    · by_cases hj : j < e.1
      · simp [insert, hk, hj, hlt, hjk]
      · by_cases hj' : e.1 < j
        · simp [insert, hk, hj, hj', hlt, hjk]
        · simp [insert, hk, hj, hj', hlt, hjk]
    · by_cases hk' : e.1 < k
      · have hej : e.1 < j := trans hk' hlt
        have hje : ¬ j < e.1 := fun h => irrefl j (trans h hej)
        simp [insert, hk, hk', hej, hje, ih]
      · obtain rfl : k = e.1 := linear hk hk'
        simp [insert, hlt, hjk, irrefl e.1]

theorem insert_comm (trans : ∀ {a b c : κ}, a < b → b < c → a < c)
    (linear : ∀ {a b : κ}, ¬ a < b → ¬ b < a → a = b) (irrefl : ∀ a : κ, ¬ a < a) {k j : κ}
    (hne : k ≠ j) (v w : β) (l : List (κ × β)) :
    insert k v (insert j w l) = insert j w (insert k v l) := by
  by_cases hkj : k < j
  · exact insert_comm_of_lt trans linear irrefl hkj v w l
  · by_cases hjk : j < k
    · exact (insert_comm_of_lt trans linear irrefl hjk w v l).symm
    · exact absurd (linear hkj hjk) hne

theorem insert_eq_append (asymm : ∀ {a b : κ}, a < b → ¬ b < a) {k : κ} {l : List (κ × β)}
    (h : ∀ e ∈ l, e.1 < k) (v : β) : insert k v l = l ++ [(k, v)] := by
  induction l with
  | nil => rfl
  | cons e l ih =>
    have he := h e List.mem_cons_self
    simp [insert, he, asymm he, ih fun e' he' => h e' (List.mem_cons_of_mem e he')]

end SortedEntries

/-! ## Maps keyed by path -/

namespace PathMap

variable {β γ : Type}

theorem get?_insert (m : PathMap β) (p q : Path) (v : β) :
    (m.insert p v).get? q = if p = q then some v else m.get? q :=
  SortedEntries.find?_insert Path.eq_of_not_lt Path.lt_irrefl p q v m.entries

theorem get?_insertAll_of_notMem (m : PathMap β) {l : List (Path × β)} {p : Path}
    (h : p ∉ l.map (·.1)) : (m.insertAll l).get? p = m.get? p := by
  induction l generalizing m with
  | nil => rfl
  | cons e l ih =>
    rw [List.map_cons, List.mem_cons, not_or] at h
    change ((m.insert e.1 e.2).insertAll l).get? p = m.get? p
    rw [ih _ h.2, get?_insert, if_neg (Ne.symm h.1)]

theorem get?_insertAll_of_mem (m : PathMap β) {l : List (Path × β)} (hl : (l.map (·.1)).Nodup)
    {p : Path} {v : β} (h : (p, v) ∈ l) : (m.insertAll l).get? p = some v := by
  induction l generalizing m with
  | nil => cases h
  | cons e l ih =>
    rw [List.map_cons, List.nodup_cons] at hl
    change ((m.insert e.1 e.2).insertAll l).get? p = some v
    rcases List.mem_cons.1 h with rfl | h
    · rw [get?_insertAll_of_notMem _ hl.1, get?_insert, if_pos rfl]
    · exact ih _ hl.2 h

theorem get?_ofList_of_mem {l : List (Path × β)} (hl : (l.map (·.1)).Nodup) {p : Path} {v : β}
    (h : (p, v) ∈ l) : (ofList l).get? p = some v :=
  get?_insertAll_of_mem empty hl h

theorem get?_ofList_of_notMem {l : List (Path × β)} {p : Path} (h : p ∉ l.map (·.1)) :
    (ofList l).get? p = none :=
  get?_insertAll_of_notMem empty h

theorem nodup_keys (m : PathMap β) : m.keys.Nodup := by
  refine List.pairwise_map.2 (m.sorted.imp fun {a b} hlt heq => ?_)
  rw [heq] at hlt
  exact Path.lt_irrefl _ hlt

theorem nodup_entries (m : PathMap β) : m.entries.Nodup :=
  (List.pairwise_map.1 m.nodup_keys).imp fun hne heq => hne (congrArg (·.1) heq)

theorem get?_eq_some {m : PathMap β} {p : Path} {v : β} :
    m.get? p = some v ↔ (p, v) ∈ m.entries :=
  ⟨SortedEntries.mem_of_find?_eq_some, fun h => SortedEntries.find?_of_mem m.nodup_keys h⟩

theorem mem_keys {m : PathMap β} {p : Path} : p ∈ m.keys ↔ (m.get? p).isSome := by
  simp [keys, Option.isSome_iff_exists, get?_eq_some]

theorem ext_get? {m m' : PathMap β} (h : ∀ p, m.get? p = m'.get? p) : m = m' := by
  have hperm : m.entries.Perm m'.entries := by
    refine (List.perm_ext_iff_of_nodup m.nodup_entries m'.nodup_entries).2 ?_
    rintro ⟨p, v⟩
    rw [← get?_eq_some, h p, get?_eq_some]
  -- entries of which each comes before the other cannot be
  have hentries : m.entries = m'.entries :=
    List.Perm.eq_of_pairwise (fun a b _ _ hab hba => absurd (Path.lt_trans hab hba)
      (Path.lt_irrefl a.1)) m.sorted m'.sorted hperm
  cases m
  cases m'
  cases hentries
  rfl

theorem get?_filterKeys (keep : Path → Bool) (m : PathMap β) (p : Path) :
    (m.filterKeys keep).get? p = if keep p then m.get? p else none := by
  ext v
  rw [get?_eq_some, filterKeys, List.mem_filter, ← get?_eq_some]
  by_cases hkeep : keep p <;> simp [hkeep]

theorem get?_map (f : β → γ) (m : PathMap β) (p : Path) : (m.map f).get? p = (m.get? p).map f := by
  unfold get? SortedEntries.find? map
  rw [List.find?_map, Option.map_map, Option.map_map]
  rfl

end PathMap

end TieredCalculus
