import Mathlib

/-! # Dictionaries

A dictionary is the list of its items in the order of insertion, with distinct keys. Assigning to a key that
is there keeps its place; a new key comes last. -/

namespace RepoPilot

structure Mapping (κ υ : Type) where
  items : List (κ × υ)
  distinct : (items.map (·.1)).Nodup

namespace Mapping
variable {κ υ : Type}

def empty : Mapping κ υ := ⟨[], List.nodup_nil⟩

def keys (m : Mapping κ υ) : List κ := m.items.map (·.1)

@[simp] theorem keys_empty : (empty : Mapping κ υ).keys = [] := rfl

variable [DecidableEq κ]

/-- `d.get(key)`. -/
def get? (m : Mapping κ υ) (key : κ) : Option υ := m.items.lookup key

@[simp] theorem get?_empty (key : κ) : (empty : Mapping κ υ).get? key = none := rfl

/-- The items once `value` is assigned to `key`. -/
def assigned (key : κ) (value : υ) : List (κ × υ) → List (κ × υ)
  | [] => [(key, value)]
  | (k, v) :: rest => if k = key then (key, value) :: rest else (k, v) :: assigned key value rest

theorem map_assigned (key : κ) (value : υ) (items : List (κ × υ)) :
    (assigned key value items).map (·.1) = items.map (·.1) ++ if key ∈ items.map (·.1) then [] else [key] := by
  induction items with
  | nil => rfl
  | cons p rest ih =>
    obtain ⟨k, v⟩ := p
    unfold assigned
    by_cases hk : k = key
    · rw [if_pos hk, if_pos (by simp [hk]), List.append_nil, List.map_cons, List.map_cons, hk]
    · have hmem : key ∈ k :: rest.map (·.1) ↔ key ∈ rest.map (·.1) := by
        simp only [List.mem_cons, or_iff_right fun he : key = k => hk he.symm]
      rw [if_neg hk, List.map_cons, ih, List.map_cons, List.cons_append]
      simp only [hmem]

theorem lookup_assigned (key key' : κ) (value : υ) (items : List (κ × υ)) :
    (assigned key value items).lookup key' = if key' = key then some value else items.lookup key' := by
  have hcons : ∀ (p : κ × υ) (rest : List (κ × υ)),
      (p :: rest).lookup key' = if key' = p.1 then some p.2 else rest.lookup key' := by
    intro p rest
    rw [List.lookup_cons]
    by_cases hk : key' = p.1
    · rw [hk, BEq.rfl, if_pos rfl]
    · rw [beq_false_of_ne hk, if_neg hk]
  induction items with
  | nil => exact hcons _ _
  | cons p rest ih =>
    unfold assigned
    by_cases hk : p.1 = key
    · rw [if_pos hk, hcons, hcons, hk]
      by_cases hkk : key' = key
      · rw [if_pos hkk, if_pos hkk]
      · rw [if_neg hkk, if_neg hkk, if_neg hkk]
    · rw [if_neg hk, hcons, hcons, ih]
      by_cases hkk : key' = p.1
      · rw [if_pos hkk, if_pos hkk, if_neg fun he => hk (hkk.symm.trans he)]
      · rw [if_neg hkk, if_neg hkk]

theorem nodup_assigned {key : κ} {value : υ} {items : List (κ × υ)} (h : (items.map (·.1)).Nodup) :
    ((assigned key value items).map (·.1)).Nodup := by
  rw [map_assigned]
  split
  · rwa [List.append_nil]
  · rename_i hnew
    rw [List.nodup_append]
    refine ⟨h, List.nodup_singleton _, fun a ha b hb he => hnew ?_⟩
    rw [← List.mem_singleton.1 hb, ← he]
    exact ha

/-- `d[key] = value`. -/
def set (m : Mapping κ υ) (key : κ) (value : υ) : Mapping κ υ := ⟨assigned key value m.items, nodup_assigned m.distinct⟩

theorem get?_set (m : Mapping κ υ) (key key' : κ) (value : υ) :
    (m.set key value).get? key' = if key' = key then some value else m.get? key' :=
  lookup_assigned key key' value m.items

theorem get?_set_self (m : Mapping κ υ) (key : κ) (value : υ) : (m.set key value).get? key = some value := by
  rw [get?_set, if_pos rfl]

theorem get?_set_of_ne (m : Mapping κ υ) {key key' : κ} (h : key' ≠ key) (value : υ) :
    (m.set key value).get? key' = m.get? key' := by
  rw [get?_set, if_neg h]

theorem keys_set (m : Mapping κ υ) (key : κ) (value : υ) :
    (m.set key value).keys = m.keys ++ if key ∈ m.keys then [] else [key] := map_assigned key value m.items

theorem items_set_of_new (m : Mapping κ υ) {key : κ} (h : key ∉ m.keys) (value : υ) :
    (m.set key value).items = m.items ++ [(key, value)] := by
  obtain ⟨items, distinct⟩ := m
  show assigned key value items = items ++ [(key, value)]
  replace h : key ∉ items.map (·.1) := h
  clear distinct
  induction items with
  | nil => rfl
  | cons p rest ih =>
    rw [List.map_cons, List.mem_cons, not_or] at h
    unfold assigned
    rw [if_neg fun he => h.1 he.symm, ih h.2, List.cons_append]

theorem get?_of_mem (m : Mapping κ υ) {key : κ} {value : υ} (h : (key, value) ∈ m.items) : m.get? key = some value := by
  obtain ⟨l₁, l₂, hl⟩ := List.append_of_mem h
  have hnew : ∀ p ∈ l₁, (key != p.1) = true := by
    intro p hp
    have hd := m.distinct
    rw [hl, List.map_append, List.map_cons, List.nodup_append] at hd
    exact bne_iff_ne.2 fun he => hd.2.2 p.1 (List.mem_map_of_mem hp) key List.mem_cons_self he.symm
  unfold get?
  rw [hl]
  exact List.lookup_eq_some_iff.2 ⟨l₁, l₂, rfl, hnew⟩

theorem mem_of_get? (m : Mapping κ υ) {key : κ} {value : υ} (h : m.get? key = some value) : (key, value) ∈ m.items := by
  obtain ⟨l₁, l₂, hl, -⟩ := List.lookup_eq_some_iff.1 h
  rw [hl]
  exact List.mem_append_right _ List.mem_cons_self

end Mapping
end RepoPilot
