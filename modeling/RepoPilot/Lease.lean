import Mathlib

/-! # Leases with fresh tokens

A row may carry a lease: a token and the time it expires. A holder presents the key of the row and
its token; its lease is live while some row has that key and token and has not expired. Tokens are
fresh when they are granted, so a lease that is once lost (replaced, cleared or expired) is lost for
good: `Live.of_evolves` carries a live lease back along every step of the table. -/

namespace RepoPilot

/-- How rows of type `ρ` carry leases: a key, a token and an expiry time. -/
structure Leased (ρ κ τ θ : Type) where
  key : ρ → κ
  token : ρ → Option τ
  expires : ρ → Option θ

namespace Leased
variable {ρ κ τ θ : Type} (L : Leased ρ κ τ θ)

/-- Row `r` is leased to the holder of token `k` for the row named `i`. -/
def Holds (i : κ) (k : τ) (r : ρ) : Prop := L.key r = i ∧ L.token r = some k

/-- The holder of `k` still has its lease on `i` at time `now`. -/
def Live [LT θ] (now : θ) (i : κ) (k : τ) (rows : List ρ) : Prop :=
  ∃ r ∈ rows, L.Holds i k r ∧ ∃ e, L.expires r = some e ∧ now < e

/-- Every lease of `rows'` is a lease of `rows`, unchanged, or has a token outside `issued`. -/
def Evolves (issued : List τ) (rows rows' : List ρ) : Prop :=
  ∀ r' ∈ rows', ∀ k, L.token r' = some k → k ∈ issued →
    ∃ r ∈ rows, L.key r = L.key r' ∧ L.token r = some k ∧ L.expires r = L.expires r'

variable {L} {issued issued' : List τ} {rows rows' rows'' : List ρ}

theorem Evolves.refl : L.Evolves issued rows rows := fun r hr _ hk _ => ⟨r, hr, rfl, hk, rfl⟩

theorem Evolves.trans (h : L.Evolves issued rows rows') (hi : ∀ k ∈ issued, k ∈ issued')
    (h' : L.Evolves issued' rows' rows'') : L.Evolves issued rows rows'' := by
  intro r'' hr'' k hk hki
  obtain ⟨r', hr', hkey, htok, hexp⟩ := h' r'' hr'' k hk (hi k hki)
  obtain ⟨r, hr, hkey', htok', hexp'⟩ := h r' hr' k htok hki
  exact ⟨r, hr, hkey'.trans hkey, htok', hexp'.trans hexp⟩

/-- Dropping rows grants no lease. -/
theorem Evolves.of_subset (h : ∀ r ∈ rows', r ∈ rows) : L.Evolves issued rows rows' :=
  fun r hr _ hk _ => ⟨r, h r hr, rfl, hk, rfl⟩

/-- Rows without a lease may be added. -/
theorem Evolves.append {new : List ρ} (h : L.Evolves issued rows rows')
    (hn : ∀ r ∈ new, L.token r = none) : L.Evolves issued rows (rows' ++ new) := by
  intro r hr k hk hki
  rcases List.mem_append.1 hr with hr | hr
  · exact h r hr k hk hki
  · rw [hn r hr] at hk; cases hk

/-- Rewriting rows grants no lease when each keeps its key and its lease, or drops its lease, or
gets a new token. -/
theorem Evolves.map {f : ρ → ρ}
    (h : ∀ r ∈ rows, L.token (f r) = none ∨ (∃ k, L.token (f r) = some k ∧ k ∉ issued) ∨
      L.key (f r) = L.key r ∧ L.token (f r) = L.token r ∧ L.expires (f r) = L.expires r) :
    L.Evolves issued rows (rows.map f) := by
  intro r' hr' k hk hki
  obtain ⟨r, hr, rfl⟩ := List.mem_map.1 hr'
  rcases h r hr with h | ⟨k', h, hk'⟩ | ⟨h1, h2, h3⟩
  · rw [h] at hk; cases hk
  · rw [h] at hk; cases hk; exact absurd hki hk'
  · exact ⟨r, hr, h1.symm, h2 ▸ hk, h3.symm⟩

section Order
variable [LinearOrder θ] {now now' : θ} {i : κ} {k : τ}

/-- A lease that is live after a step, later or at the same time, was live before it. -/
theorem Live.of_evolves (h : L.Evolves issued rows rows') (hk : k ∈ issued) (hn : now ≤ now')
    (hl : L.Live now' i k rows') : L.Live now i k rows := by
  obtain ⟨r', hr', ⟨hkey, htok⟩, e, he, hlt⟩ := hl
  obtain ⟨r, hr, hkey', htok', hexp⟩ := h r' hr' k htok hk
  exact ⟨r, hr, ⟨hkey'.trans hkey, htok'⟩, e, hexp.trans he, lt_of_le_of_lt hn hlt⟩

end Order

end Leased
end RepoPilot
