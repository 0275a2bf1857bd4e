import Mathlib.Data.List.Induction

/-!
# First occurrences

`List.eraseDups` keeps each entry of a list at its first occurrence. One more entry at the end makes
a difference only if it is new (`eraseDups_concat`). So if the entries stand at places that increase
along the list, those that are kept stand in the order of the places where they first occur
(`pairwise_eraseDups`).
-/

namespace StepCalc

theorem eraseDups_concat {α : Type} [DecidableEq α] (l : List α) (a : α) :
    (l ++ [a]).eraseDups = if a ∈ l then l.eraseDups else l.eraseDups ++ [a] := by
  rw [List.eraseDups_append]
  by_cases hmem : a ∈ l
  · simp [List.removeAll, hmem]
  · simp [List.removeAll, hmem, List.eraseDups_cons]

/-- The list has entries with their places, which are in order. Of two entries that are kept, the
first one occurs at some place before all occurrences of the second one. -/
theorem pairwise_eraseDups {π α : Type} [DecidableEq α] {before : π → π → Prop} {l : List (π × α)}
    (h : l.Pairwise fun x y => before x.1 y.1) :
    (l.map Prod.snd).eraseDups.Pairwise fun a b =>
      ∃ p, (p, a) ∈ l ∧ ∀ q, (q, b) ∈ l → before p q := by
  induction l using List.reverseRecOn with
  | nil => exact List.Pairwise.nil
  | append_singleton l last ih =>
    obtain ⟨place, entry⟩ := last
    obtain ⟨hl, _, hlast⟩ := List.pairwise_append.mp h
    -- the last place comes after all others
    have hafter : ∀ p a, (p, a) ∈ l → before p place := fun p a hp =>
      hlast (p, a) hp (place, entry) List.mem_cons_self
    have hkept : (l.map Prod.snd).eraseDups.Pairwise fun a b =>
        ∃ p, (p, a) ∈ l ++ [(place, entry)] ∧
          ∀ q, (q, b) ∈ l ++ [(place, entry)] → before p q := by
      refine (ih hl).imp ?_
      rintro a b ⟨p, hp, hfirst⟩
      refine ⟨p, List.mem_append_left _ hp, fun q hq => ?_⟩
      rcases List.mem_append.mp hq with hq | hq
      · exact hfirst q hq
      · cases List.mem_singleton.mp hq
        exact hafter p a hp
    rw [List.map_append, List.map_singleton, eraseDups_concat]
    split
    case isTrue => exact hkept
    case isFalse hnew =>
      refine List.pairwise_append.mpr ⟨hkept, List.pairwise_singleton _ _, fun a ha b hb => ?_⟩
      obtain ⟨⟨p, _⟩, hp, rfl⟩ := List.mem_map.mp (List.mem_eraseDups.mp ha)
      cases List.mem_singleton.mp hb
      refine ⟨p, List.mem_append_left _ hp, fun q hq => ?_⟩
      rcases List.mem_append.mp hq with hq | hq
      · exact absurd (List.mem_map.mpr ⟨_, hq, rfl⟩) hnew
      · cases List.mem_singleton.mp hq
        exact hafter p _ hp

end StepCalc
