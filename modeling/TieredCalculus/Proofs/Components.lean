import Mathlib.Logic.ExistsUnique
import TieredCalculus.Proofs.Naming

/-! # Paths as words over components

Two texts with a slash between them are read as the two paths one after the other, whatever
slashes the texts begin and end with. Joining is therefore the concatenation of the components,
and every list of components is a path, so that paths are the words over components.
-/

namespace TieredCalculus.Path

variable {p q r : Path}

/-! ## Reading texts -/

theorem components_ofString (s : String) :
    (ofString s).components = ((s.split '/').toList.map String.Slice.copy).filter (· ≠ "") := by
  change ((pieces s.toList).filter (· ≠ [])).map String.ofList = _
  rw [String.toList_split_char, pieces_eq_splitOn, List.filter_map]
  congr 2
  funext piece
  simp

example : (ofString "//state/internal//ep/").components = ["state", "internal", "ep"] := rfl

theorem ofString_slash (s u : String) : ofString (s ++ "/" ++ u) = ofString s ++ ofString u := by
  apply Path.ext
  have hpieces : pieces (s ++ "/" ++ u).toList = pieces s.toList ++ pieces u.toList := by
    have htext : (s ++ "/" ++ u).toList = s.toList ++ '/' :: u.toList := by simp
    rw [htext, pieces_eq_splitOn, pieces_eq_splitOn, pieces_eq_splitOn,
      List.splitOn_append_cons_self]
  change ((pieces (s ++ "/" ++ u).toList).filter (· ≠ [])).map String.ofList = _
  rw [hpieces, List.filter_append, List.map_append]
  rfl

/-! ## Joining -/

@[simp] theorem root_append (p : Path) : root ++ p = p := rfl

@[simp] theorem append_root (p : Path) : p ++ root = p :=
  Path.ext (List.append_nil p.components)

theorem append_assoc (p q r : Path) : p ++ q ++ r = p ++ (q ++ r) :=
  Path.ext (List.append_assoc p.components q.components r.components)

theorem join_text (p q : Path) : p.join q.text = p ++ q := by
  rw [join, ofString_text]

theorem join_eq_ofString (p : Path) (s : String) : p.join s = ofString (p.text ++ "/" ++ s) := by
  rw [ofString_slash, ofString_text, join]

theorem first_append_tail (p : Path) : ofString p.first ++ p.tail = p := by
  obtain ⟨cs, hcs⟩ := p
  apply Path.ext
  rw [components_append]
  cases cs with
  | nil => rfl
  | cons c rest =>
    change (ofString c).components ++ rest = c :: rest
    rw [ofString_component (hcs c List.mem_cons_self), List.singleton_append]

/-! ## Prefixes -/

theorem isUnder_iff_append : p.isUnder q = true ↔ ∃ r, q ++ r = p := by
  rw [isUnder_iff]
  constructor
  · rintro ⟨rest, hp⟩
    refine ⟨p.drop q.depth, Path.ext ?_⟩
    change q.components ++ p.components.drop q.components.length = p.components
    rw [hp, List.drop_left]
  · rintro ⟨r, rfl⟩
    exact ⟨r.components, rfl⟩

theorem relativeTo?_append (q r : Path) : (q ++ r).relativeTo? q = some r := by
  rw [relativeTo?, if_pos (isUnder_iff_append.2 ⟨r, rfl⟩)]
  exact congrArg some (Path.ext List.drop_left)

theorem relativeTo?_eq_some : p.relativeTo? q = some r ↔ q ++ r = p := by
  constructor
  · intro h
    obtain ⟨hunder, -⟩ := Option.ite_none_right_eq_some.1 h
    obtain ⟨rest, rfl⟩ := isUnder_iff_append.1 hunder
    rw [relativeTo?_append, Option.some.injEq] at h
    rw [h]
  · rintro rfl
    exact relativeTo?_append q r

theorem isSome_relativeTo? (p q : Path) : (p.relativeTo? q).isSome = p.isUnder q := by
  unfold relativeTo?
  split <;> simp [*]

/-! ## Words -/

/-- Paths are the words over components, read from texts by dropping empty pieces. Reading the
text of a path gives it back, and paths are equal exactly where their texts are and where their
components are. Joining is associative with the empty path as unit. A path lies under another
exactly where the components of the other come first in it, and it is then the other joined with
the rest. -/
theorem words_over_components :
    (∀ s : String, (ofString s).components =
      ((s.split '/').toList.map String.Slice.copy).filter (· ≠ "")) ∧
    (∀ p : Path, ofString p.text = p) ∧
    (∀ p q : Path, (p = q ↔ p.components = q.components) ∧ (p = q ↔ p.text = q.text)) ∧
    (∀ cs : List {c : String // IsComponent c}, ∃! p : Path, p.components = cs.map (·.1)) ∧
    (∀ (p : Path) (s : String), p.join s = ofString (p.text ++ "/" ++ s) ∧
      (p.join s).components = p.components ++ (ofString s).components) ∧
    (∀ (p : Path) (s u : String), (p.join s).join u = p.join ((ofString s).join u).text) ∧
    (∀ p : Path, (ofString "").join p.text = p ∧ p.join "" = p) ∧
    (∀ p q : Path, (p.isUnder q = true ↔ q.components <+: p.components) ∧
      ((p.relativeTo? q).isSome = true ↔ p.isUnder q = true) ∧
      ∀ r, p.relativeTo? q = some r ↔ q.join r.text = p) ∧
    (∀ (p : Path) (s : String), (p.join s).relativeTo? p = some (ofString s)) ∧
    ∀ p : Path, (ofString p.first).join p.tail.text = p := by
  refine ⟨components_ofString, ofString_text, fun p q => ⟨⟨congrArg _, Path.ext⟩,
    ⟨congrArg _, text_injective⟩⟩, fun cs => ?_, fun p s => ⟨join_eq_ofString p s, rfl⟩,
    fun p s u => ?_, fun p => ⟨?_, ?_⟩, fun p q => ⟨?_, ?_, fun r => ?_⟩, fun p s => ?_,
    fun p => ?_⟩
  · refine ⟨⟨cs.map (·.1), fun c hc => ?_⟩, rfl, fun p hp => Path.ext hp⟩
    obtain ⟨c, -, rfl⟩ := List.mem_map.1 hc
    exact c.2
  · rw [join_text]
    exact append_assoc p (ofString s) (ofString u)
  · rw [join_text]
    exact root_append p
  · exact append_root p
  · exact List.isPrefixOf_iff_prefix
  · rw [isSome_relativeTo?]
  · rw [join_text, relativeTo?_eq_some]
  · exact relativeTo?_append p (ofString s)
  · rw [join_text, first_append_tail]

end TieredCalculus.Path
