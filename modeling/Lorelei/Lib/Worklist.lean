import Mathlib.Data.List.Basic
import Mathlib.Logic.Relation

/-!
# Walking a graph with a stack

A walk pops an item, skips it if its key has been seen before, and pushes its successors
otherwise. Only keys are remembered, so what a walk finds is exact as far as items with
one key have the same successors (`mem_of_reaches`); it finds nothing that cannot be
reached (`reaches_of_mem`), and it ends where the keys are finite in number
(`exists_walk`).
-/

namespace Worklist

variable {α κ : Type*} [DecidableEq κ] (key : α → κ) (next : α → List α)

/-- The items that are not skipped, in the order they are popped. The stack is a list
with its top in front. -/
def walk : Nat → List α → List κ → Option (List α)
  | _, [], _ => some []
  | 0, _ :: _, _ => none
  | fuel + 1, a :: stack, visited =>
      if key a ∈ visited then walk fuel stack visited
      else (walk fuel ((next a).reverse ++ stack) (key a :: visited)).map (a :: ·)

/-- The way from one item to another along successors. -/
abbrev Reaches (a b : α) : Prop := Relation.ReflTransGen (fun a b => b ∈ next a) a b

variable {key next} {fuel : Nat} {stack out : List α} {visited : List κ} {a b x : α}

theorem walk_cons_of_mem (h : key a ∈ visited) :
    walk key next (fuel + 1) (a :: stack) visited = walk key next fuel stack visited := by
  rw [walk, if_pos h]

theorem walk_cons_of_notMem (h : key a ∉ visited) :
    walk key next (fuel + 1) (a :: stack) visited =
      (walk key next fuel ((next a).reverse ++ stack) (key a :: visited)).map (a :: ·) := by
  rw [walk, if_neg h]

/-- More fuel changes nothing. -/
theorem walk_mono (h : walk key next fuel stack visited = some out) {fuel' : Nat}
    (hle : fuel ≤ fuel') : walk key next fuel' stack visited = some out := by
  induction fuel generalizing stack visited out fuel' with
  | zero =>
      cases stack with
      | nil => cases fuel' <;> exact h
      | cons a stack => exact nomatch h
  | succ fuel ih =>
      obtain ⟨fuel', rfl⟩ : ∃ n, fuel' = n + 1 := ⟨fuel' - 1, by omega⟩
      cases stack with
      | nil => exact h
      | cons a stack =>
          by_cases hmem : key a ∈ visited
          · rw [walk_cons_of_mem hmem] at h ⊢
            exact ih h (by omega)
          · rw [walk_cons_of_notMem hmem] at h ⊢
            obtain ⟨rest, hrest, rfl⟩ := Option.map_eq_some_iff.mp h
            rw [ih hrest (by omega)]
            rfl

/-! ## What a walk finds -/

/-- Every item that is found can be reached from the stack. -/
theorem reaches_of_mem (h : walk key next fuel stack visited = some out) (hx : x ∈ out) :
    ∃ a ∈ stack, Reaches next a x := by
  induction fuel generalizing stack visited out with
  | zero =>
      cases stack with
      | nil =>
          cases h
          exact absurd hx List.not_mem_nil
      | cons a stack => exact nomatch h
  | succ fuel ih =>
      cases stack with
      | nil =>
          cases h
          exact absurd hx List.not_mem_nil
      | cons a stack =>
          by_cases hmem : key a ∈ visited
          · rw [walk_cons_of_mem hmem] at h
            obtain ⟨b, hb, hreach⟩ := ih h hx
            exact ⟨b, List.mem_cons_of_mem a hb, hreach⟩
          · rw [walk_cons_of_notMem hmem] at h
            obtain ⟨rest, hrest, rfl⟩ := Option.map_eq_some_iff.mp h
            rcases List.mem_cons.mp hx with rfl | hx
            · exact ⟨x, List.mem_cons_self, .refl⟩
            · obtain ⟨b, hb, hreach⟩ := ih hrest hx
              rcases List.mem_append.mp hb with hb | hb
              · exact ⟨a, List.mem_cons_self, .head (List.mem_reverse.mp hb) hreach⟩
              · exact ⟨b, List.mem_cons_of_mem a hb, hreach⟩

/-- The keys that are known after a walk. -/
theorem key_mem_of_stack (h : walk key next fuel stack visited = some out) (ha : a ∈ stack) :
    key a ∈ visited ∨ key a ∈ out.map key := by
  induction fuel generalizing stack visited out with
  | zero =>
      cases stack with
      | nil => exact absurd ha List.not_mem_nil
      | cons a stack => exact nomatch h
  | succ fuel ih =>
      cases stack with
      | nil => exact absurd ha List.not_mem_nil
      | cons b stack =>
          by_cases hmem : key b ∈ visited
          · rw [walk_cons_of_mem hmem] at h
            rcases List.mem_cons.mp ha with rfl | ha
            · exact .inl hmem
            · exact ih h ha
          · rw [walk_cons_of_notMem hmem] at h
            obtain ⟨rest, hrest, rfl⟩ := Option.map_eq_some_iff.mp h
            rcases List.mem_cons.mp ha with rfl | ha
            · exact .inr (by simp)
            · rcases ih hrest (List.mem_append_right _ ha) with hk | hk
              · rcases List.mem_cons.mp hk with hk | hk
                · exact .inr (by simp [hk])
                · exact .inl hk
              · exact .inr (List.mem_cons_of_mem _ hk)

/-- The successors of what is found are known too. -/
theorem key_mem_of_next (h : walk key next fuel stack visited = some out) (hb : b ∈ out)
    (ha : a ∈ next b) : key a ∈ visited ∨ key a ∈ out.map key := by
  induction fuel generalizing stack visited out with
  | zero =>
      cases stack with
      | nil =>
          cases h
          exact absurd hb List.not_mem_nil
      | cons a stack => exact nomatch h
  | succ fuel ih =>
      cases stack with
      | nil =>
          cases h
          exact absurd hb List.not_mem_nil
      | cons c stack =>
          by_cases hmem : key c ∈ visited
          · rw [walk_cons_of_mem hmem] at h
            exact ih h hb
          · rw [walk_cons_of_notMem hmem] at h
            obtain ⟨rest, hrest, rfl⟩ := Option.map_eq_some_iff.mp h
            have hknown : key a ∈ key c :: visited ∨ key a ∈ rest.map key := by
              rcases List.mem_cons.mp hb with rfl | hb
              · exact key_mem_of_stack hrest (List.mem_append_left _ (List.mem_reverse.mpr ha))
              · exact ih hrest hb
            rcases hknown with hk | hk
            · rcases List.mem_cons.mp hk with hk | hk
              · exact .inr (by simp [hk])
              · exact .inl hk
            · exact .inr (List.mem_cons_of_mem _ hk)

/-- A walk finds the key of every item on the way to `x`, if found items with the key of
an item on the way have its successors. -/
theorem mem_of_reaches (h : walk key next fuel stack [] = some out) (ha : a ∈ stack)
    (hsame : ∀ c d, Reaches next a c → Reaches next c x → d ∈ out → key d = key c →
      ∀ c' ∈ next c, ∃ d' ∈ next d, key d' = key c')
    (hx : Reaches next a x) : key x ∈ out.map key := by
  -- the induction is on the way to an item behind which `x` can still be reached
  have hway : ∀ b, Reaches next a b → Reaches next b x → key b ∈ out.map key := by
    intro b hab
    induction hab with
    | refl => exact fun _ => (key_mem_of_stack h ha).resolve_left List.not_mem_nil
    | tail hac hcb ih =>
        intro hbx
        obtain ⟨d, hd, hdc⟩ := List.mem_map.mp (ih (.head hcb hbx))
        obtain ⟨d', hd', heq⟩ := hsame _ d hac (.head hcb hbx) hd hdc _ hcb
        exact heq ▸ (key_mem_of_next h hd hd').resolve_left List.not_mem_nil
  exact hway x hx .refl

/-! ## Walks end -/

/-- Seeing one more key leaves fewer of them. -/
theorem length_filter_notMem_lt {k : κ} {keys : List κ} (hnew : k ∉ visited) (hk : k ∈ keys) :
    (keys.filter (· ∉ k :: visited)).length < (keys.filter (· ∉ visited)).length := by
  have hsub : keys.filter (· ∉ k :: visited) =
      (keys.filter (· ∉ visited)).filter (· ≠ k) := by
    rw [List.filter_filter]
    refine List.filter_congr fun k' _ => ?_
    simp [not_or]
  rw [hsub]
  refine List.length_filter_lt_length_iff_exists.mpr ⟨k, ?_, by simp⟩
  simp [hk, hnew]

/-- A walk inside a part of the graph that has finitely many keys ends. -/
theorem exists_walk (P : α → Prop) (keys : List κ) (hkey : ∀ a, P a → key a ∈ keys)
    (hnext : ∀ a, P a → ∀ b ∈ next a, P b) (stack : List α) (visited : List κ)
    (hstack : ∀ a ∈ stack, P a) : ∃ fuel out, walk key next fuel stack visited = some out := by
  induction hn : (keys.filter (· ∉ visited)).length using Nat.strongRecOn
    generalizing stack visited with
  | ind n ih =>
      induction stack with
      | nil => exact ⟨0, [], rfl⟩
      | cons a stack ihstack =>
          have ha := hstack a List.mem_cons_self
          have hrest := fun b hb => hstack b (List.mem_cons_of_mem a hb)
          by_cases hmem : key a ∈ visited
          · obtain ⟨fuel, out, hwalk⟩ := ihstack hrest
            exact ⟨fuel + 1, out, (walk_cons_of_mem hmem).trans hwalk⟩
          · have hlt : (keys.filter (· ∉ key a :: visited)).length < n :=
              hn ▸ length_filter_notMem_lt hmem (hkey a ha)
            have hstack' : ∀ b ∈ (next a).reverse ++ stack, P b := by
              intro b hb
              rcases List.mem_append.mp hb with hb | hb
              · exact hnext a ha b (List.mem_reverse.mp hb)
              · exact hrest b hb
            obtain ⟨fuel, out, hwalk⟩ := ih _ hlt _ (key a :: visited) hstack' rfl
            exact ⟨fuel + 1, a :: out, by rw [walk_cons_of_notMem hmem, hwalk]; rfl⟩

end Worklist
