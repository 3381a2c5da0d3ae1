import Mathlib.Order.Lattice

/-!
# Last-writer registers

A register that is offered values one after another and keeps the highest-ranked
one: an offer takes the slot only when the slot is empty or holds a value of
strictly lower rank. What the register ends up with is a top of the offers
(`foldl_top`); when ranks tell the offers apart, it depends only on the set of
offers, not on their order or multiplicity (`Top.unique`). Two registers are joined
by offering the value of one to the other (`join`).
-/

namespace Oryx.Library.LastWriter
set_option autoImplicit false

variable {V R : Type*} [LinearOrder R] {rank : V → R}

/-- One offer. The old value stays on a tie. -/
def adopt (rank : V → R) (slot : Option V) (v : V) : Option V :=
  match slot with
  | none => some v
  | some old => if rank old < rank v then some v else some old

/-- `slot` holds a highest-ranked one of `offers`, nothing when there were none. -/
def Top (rank : V → R) (offers : List V) : Option V → Prop
  | none => offers = []
  | some v => v ∈ offers ∧ ∀ x ∈ offers, rank x ≤ rank v

/-- An offer extends the offers the slot is a top of. -/
theorem Top.adopt {offers : List V} {slot : Option V} (top : Top rank offers slot) (v : V) :
    Top rank (offers ++ [v]) (adopt rank slot v) := by
  cases slot with
  | none =>
    have empty : offers = [] := top
    subst empty
    exact ⟨List.mem_singleton_self v, fun x hx => (List.mem_singleton.mp hx ▸ le_rfl)⟩
  | some old =>
    obtain ⟨member, above⟩ := top
    by_cases less : rank old < rank v
    · simp only [LastWriter.adopt, less, if_true]
      refine ⟨List.mem_append_right _ (List.mem_singleton_self v), fun x hx => ?_⟩
      rcases List.mem_append.mp hx with hx | hx
      · exact (above x hx).trans less.le
      · exact (List.mem_singleton.mp hx ▸ le_rfl)
    · simp only [LastWriter.adopt, less, if_false]
      refine ⟨List.mem_append_left _ member, fun x hx => ?_⟩
      rcases List.mem_append.mp hx with hx | hx
      · exact above x hx
      · exact List.mem_singleton.mp hx ▸ not_lt.mp less

theorem Top.foldl {seen : List V} {slot : Option V} (top : Top rank seen slot) (offers : List V) :
    Top rank (seen ++ offers) (offers.foldl (LastWriter.adopt rank) slot) := by
  induction offers generalizing seen slot with
  | nil => simpa using top
  | cons v rest ih =>
    have next := ih (top.adopt v)
    rw [List.append_assoc, List.singleton_append] at next
    exact next

/-- The register after a list of offers is a top of them. -/
theorem foldl_top (rank : V → R) (offers : List V) :
    Top rank offers (offers.foldl (adopt rank) none) := by
  have none : Top rank ([] : List V) none := rfl
  exact none.foldl offers

/-- Among some offers there is a highest-ranked one. -/
theorem exists_top (rank : V → R) {offers : List V} {v : V} (member : v ∈ offers) :
    ∃ t ∈ offers, ∀ x ∈ offers, rank x ≤ rank t := by
  have top := foldl_top rank offers
  revert top
  generalize offers.foldl (adopt rank) none = slot
  intro top
  cases slot with
  | none =>
    have empty : offers = [] := top
    rw [empty] at member
    cases member
  | some t => exact ⟨t, top⟩

/-- Registers offered the same set of values hold the same one, as long as two
different offers have different ranks. -/
theorem Top.unique {offers offers' : List V} {slot slot' : Option V}
    (top : Top rank offers slot) (top' : Top rank offers' slot')
    (same : ∀ x, x ∈ offers ↔ x ∈ offers')
    (apart : ∀ x ∈ offers, ∀ y ∈ offers, rank x = rank y → x = y) : slot = slot' := by
  cases slot with
  | none =>
    have empty : offers = [] := top
    cases slot' with
    | none => rfl
    | some v' =>
      have member := (same v').mpr top'.1
      simp [empty] at member
  | some v =>
    obtain ⟨member, above⟩ := top
    cases slot' with
    | none =>
      have empty : offers' = [] := top'
      have member' := (same v).mp member
      simp [empty] at member'
    | some v' =>
      obtain ⟨member', above'⟩ := top'
      have back := (same v').mpr member'
      have equal : rank v = rank v' :=
        le_antisymm (above' v ((same v).mp member)) (above v' back)
      rw [apart v member v' back equal]

/-! ## Joins -/

/-- After an offer the register holds it or something no lower. -/
theorem exists_adopt (slot : Option V) (v : V) : ∃ w, adopt rank slot v = some w ∧ rank v ≤ rank w := by
  cases slot with
  | none => exact ⟨v, rfl, le_rfl⟩
  | some old =>
    by_cases less : rank old < rank v
    · exact ⟨v, by simp [adopt, less], le_rfl⟩
    · exact ⟨old, by simp [adopt, less], not_lt.mp less⟩

theorem adopt_ne_none (slot : Option V) (v : V) : adopt rank slot v ≠ none := by
  obtain ⟨w, held, -⟩ := @exists_adopt _ _ _ rank slot v
  simp [held]

theorem adopt_self (v : V) : adopt rank (some v) v = some v := by simp [adopt]

theorem adopt_adopt (slot : Option V) (v : V) : adopt rank (adopt rank slot v) v = adopt rank slot v := by
  cases slot with
  | none => exact adopt_self v
  | some old => by_cases less : rank old < rank v <;> simp [adopt, less]

/-- Offering one value several times is offering it once. -/
theorem foldl_adopt_of_eq {v : V} {offers : List V} (only : ∀ x ∈ offers, x = v) (some_offer : offers ≠ [])
    (slot : Option V) : offers.foldl (adopt rank) slot = adopt rank slot v := by
  induction offers generalizing slot with
  | nil => exact absurd rfl some_offer
  | cons x rest ih =>
    obtain ⟨rfl, later⟩ := List.forall_mem_cons.mp only
    cases rest with
    | nil => rfl
    | cons y rest => rw [List.foldl_cons, ih later (List.cons_ne_nil _ _), adopt_adopt]

/-- The join of two registers: the second one's value is offered to the first. -/
def join (rank : V → R) (slot : Option V) : Option V → Option V
  | none => slot
  | some v => adopt rank slot v

theorem join_adopt (slot slot' : Option V) (v : V) :
    join rank slot (adopt rank slot' v) = adopt rank (join rank slot slot') v := by
  cases slot' with
  | none => rfl
  | some t =>
    cases slot with
    | none => by_cases less : rank t < rank v <;> simp [join, adopt, less]
    | some old =>
      by_cases newer : rank t < rank v <;> by_cases loses : rank old < rank t
      · simp [join, adopt, newer, loses, loses.trans newer]
      · simp [join, adopt, newer, loses]
      · simp [join, adopt, newer, loses]
      · have keeps : ¬rank old < rank v := not_lt.mpr ((not_lt.mp newer).trans (not_lt.mp loses))
        simp [join, adopt, newer, loses, keeps]

/-- Joining with a register is being offered what it was offered. -/
theorem join_foldl (offers : List V) (slot : Option V) :
    join rank slot (offers.foldl (adopt rank) none) = offers.foldl (adopt rank) slot := by
  have general : ∀ slot', join rank slot (offers.foldl (adopt rank) slot') =
      offers.foldl (adopt rank) (join rank slot slot') := by
    induction offers with
    | nil => exact fun slot' => rfl
    | cons v rest ih => exact fun slot' => by rw [List.foldl_cons, List.foldl_cons, ih, join_adopt]
  exact general none

/-- Joining back and forth makes two registers equal, unless they hold different values of one rank. -/
theorem join_join {slot slot' : Option V} (apart : ∀ v v', slot = some v → slot' = some v' → rank v = rank v' → v = v') :
    join rank slot' (join rank slot slot') = join rank slot slot' := by
  cases slot with
  | none => cases slot' <;> simp [join, adopt]
  | some v =>
    cases slot' with
    | none => rfl
    | some v' =>
      rcases lt_trichotomy (rank v) (rank v') with less | same | more
      · simp [join, adopt, less]
      · obtain rfl := apart v v' rfl rfl same
        simp [join, adopt]
      · simp [join, adopt, more, more.not_gt]

/-- A value that ranks no higher than the one held is refused, however often it is offered. -/
theorem foldl_adopt_refused {old : V} {offers : List V} (lower : ∀ x ∈ offers, rank x ≤ rank old) :
    offers.foldl (adopt rank) (some old) = some old := by
  induction offers with
  | nil => rfl
  | cons x rest ih =>
    obtain ⟨here, later⟩ := List.forall_mem_cons.mp lower
    rw [List.foldl_cons, adopt, if_neg (not_lt.mpr here)]
    exact ih later

/-- A register that was offered something holds an offer, and no offer is above it. -/
theorem Top.exists_some {offers : List V} {slot : Option V} (top : Top rank offers slot) {x : V} (member : x ∈ offers) :
    ∃ v, slot = some v ∧ v ∈ offers ∧ rank x ≤ rank v := by
  cases slot with
  | none =>
    have empty : offers = [] := top
    rw [empty] at member
    cases member
  | some v => exact ⟨v, rfl, top.1, top.2 x member⟩

/-- A join of tops is a top of all the offers. -/
theorem Top.join {offers offers' : List V} {slot slot' : Option V} (top : Top rank offers slot)
    (top' : Top rank offers' slot') : Top rank (offers ++ offers') (join rank slot slot') := by
  cases slot' with
  | none =>
    have empty : offers' = [] := top'
    rw [empty, List.append_nil]
    exact top
  | some v' =>
    obtain ⟨member', above'⟩ := top'
    have next := top.adopt v'
    rw [LastWriter.join]
    revert next
    generalize LastWriter.adopt rank slot v' = joined
    intro next
    cases joined with
    | none => exact absurd next (List.append_ne_nil_of_right_ne_nil _ (List.cons_ne_nil _ _))
    | some w =>
      obtain ⟨member, above⟩ := next
      constructor
      · rcases List.mem_append.mp member with old | last
        · exact List.mem_append_left _ old
        · exact List.mem_append_right _ (List.mem_singleton.mp last ▸ member')
      · intro x mem
        rcases List.mem_append.mp mem with old | new
        · exact above x (List.mem_append_left _ old)
        · exact (above' x new).trans (above v' (List.mem_append_right _ (List.mem_singleton_self v')))

end Oryx.Library.LastWriter
