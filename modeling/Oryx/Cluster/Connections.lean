import Mathlib.Data.List.Nodup
import Oryx.Cluster.ClientCache
import Oryx.Library.Runs

/-!
# Connections of the client cache

No connection of the client cache is leaked or made twice, whatever calls run and however their
steps interleave. The proof has an assertion at every point of the two functions (`Fits`), what a
call may rely on when others move (`Rely`) and what each of its own steps guarantees (`Guarantee`).
A client is stored under the lock by a call that has just found the cache open; the call that
closes the cache needs the lock to empty it, so no client is stored behind its back.
-/

namespace Oryx.Cluster
set_option autoImplicit false
open Oryx.Library

/-! ## Assertions -/

namespace Phase

variable {A I : Type}

/-- The dialled client that only this call knows. -/
def inHand : Phase A I → Option Nat
  | .lock _ client | .locked _ client | .refuse _ client | .refused _ client | .store _ client => some client
  | .beaten _ client _ | .discard _ client _ => some client
  | _ => none

/-- The call is about to store its client. -/
def storing : Phase A I → Bool
  | .store .. => true
  | _ => false

/-- The call closed the cache and has still to empty it. -/
def sweeping : Phase A I → Bool
  | .await | .range | .ranging _ | .visiting .. | .deleting .. => true
  | _ => false

/-- A call of `Get`. -/
def getting : Phase A I → Bool
  | .idle | .swap | .await | .range | .ranging _ | .visiting .. | .deleting .. | .closed => false
  | _ => true

theorem not_sweeping_of_getting {p : Phase A I} (getting : p.getting = true) : p.sweeping = false := by
  cases p <;> first | rfl | cases getting

theorem of_sweeping {p : Phase A I} (sweeping : p.sweeping = true) :
    p.inHand = none ∧ p.storing = false ∧ p ≠ .closed := by
  cases p with
  | await | range | ranging | visiting | deleting => exact ⟨rfl, rfl, by simp⟩
  | _ => cases sweeping

/-- The call has not started, or it has returned. -/
def atRest : Phase A I → Bool
  | .idle | .returned .. | .closed => true
  | _ => false

theorem of_atRest {p : Phase A I} (rest : p.atRest = true) : p.inHand = none ∧ p.sweeping = false := by
  cases p with
  | idle | returned | closed => exact ⟨rfl, rfl⟩
  | _ => cases rest

end Phase

section Assertions

variable {A I : Type} {m m' : ClientCache A I} {stored stored' : List (A × Nat)} {i j : I}

/-- A result that is a client is the one that was stored for the address. -/
def Good (stored : List (A × Nat)) (addr : A) (result : Except Error Nat) : Prop :=
  ∀ client, result = .ok client → (addr, client) ∈ stored

/-- The call has not entered the singleflight group. -/
def Unled (m : ClientCache A I) (i : I) : Prop := (∀ addr, m.flights addr ≠ some i) ∧ m.outcomes i = none

/-- The call runs the function for the address, and for no other. -/
def Leads (m : ClientCache A I) (i : I) (addr : A) : Prop :=
  (∀ addr', m.flights addr' = some i ↔ addr' = addr) ∧ m.outcomes i = none

/-- The call that is waited for is under way, or its result is there. -/
def Awaits (m : ClientCache A I) (stored : List (A × Nat)) (addr : A) (leader : I) : Prop :=
  m.flights addr = some leader ∨ ∃ result, m.outcomes leader = some result ∧ Good stored addr result

/-- What holds when call `i` is at the given point; `stored` is what was ever put into the map. -/
def Fits (m : ClientCache A I) (stored : List (A × Nat)) (i : I) : Phase A I → Prop
  | .idle | .check _ | .load _ | .enter _ => Unled m i
  | .wait addr leader => Awaits m stored addr leader
  | .inner addr | .dial addr | .lock addr _ | .refused addr _ => Leads m i addr
  | .locked addr _ | .refuse addr _ => Leads m i addr ∧ m.owner = some i
  | .store addr _ => Leads m i addr ∧ m.owner = some i ∧ m.clients = stored
  | .stored addr client => Leads m i addr ∧ m.owner = some i ∧ (addr, client) ∈ stored
  | .beaten addr _ actual => Leads m i addr ∧ m.owner = some i ∧ (addr, actual) ∈ stored
  | .discard addr _ actual => Leads m i addr ∧ (addr, actual) ∈ stored
  | .done addr result => Leads m i addr ∧ Good stored addr result
  | .returned addr result => Good stored addr result
  | .swap => True
  | .await => m.closed = true
  | .range => m.closed = true ∧ m.owner = some i
  | .ranging rest => m.closed = true ∧ m.owner = some i ∧ ∀ e ∈ m.clients, e.1 ∈ rest
  | .visiting addr client rest =>
    m.closed = true ∧ m.owner = some i ∧ (∀ e ∈ m.clients, e.1 ∈ addr :: rest) ∧ (addr, client) ∈ m.clients
  | .deleting addr rest =>
    m.closed = true ∧ m.owner = some i ∧ (∀ e ∈ m.clients, e.1 ∈ addr :: rest) ∧
      ∀ client, (addr, client) ∈ m.clients → client ∈ m.hungUp
  | .closed => m.closed = true

/-- What call `j` can rely on when another call takes a step. -/
structure Rely (m m' : ClientCache A I) (stored stored' : List (A × Nat)) (j : I) : Prop where
  closed : m.closed = true → m'.closed = true
  locked : m.owner = some j → m'.owner = some j ∧ m'.clients = m.clients ∧ stored' = stored
  leads : ∀ addr, m'.flights addr = some j ↔ m.flights addr = some j
  outcome : m'.outcomes j = m.outcomes j
  awaits : ∀ addr leader, Awaits m stored addr leader → Awaits m' stored' addr leader
  stored : stored ⊆ stored'
  hungUp : m.hungUp ⊆ m'.hungUp

theorem Good.mono {addr : A} {result : Except Error Nat} (good : Good stored addr result) (more : stored ⊆ stored') :
    Good stored' addr result := fun client same => more (good client same)

theorem Rely.leads_mono (rely : Rely m m' stored stored' j) {addr : A} (leads : Leads m j addr) : Leads m' j addr :=
  ⟨fun addr' => (rely.leads addr').trans (leads.1 addr'), rely.outcome.trans leads.2⟩

/-- **No interference**: what call `j` asserts survives the steps of the others. -/
theorem Fits.mono (rely : Rely m m' stored stored' j) {p : Phase A I} (fits : Fits m stored j p) :
    Fits m' stored' j p := by
  cases p with
  | idle | check | load | enter =>
    exact ⟨fun addr flying => fits.1 addr ((rely.leads addr).mp flying), rely.outcome.trans fits.2⟩
  | wait => exact rely.awaits _ _ fits
  | inner | dial | lock | refused => exact rely.leads_mono fits
  | locked | refuse => exact ⟨rely.leads_mono fits.1, (rely.locked fits.2).1⟩
  | store =>
    obtain ⟨leads, owns, same⟩ := fits
    obtain ⟨owns', clients, stored⟩ := rely.locked owns
    exact ⟨rely.leads_mono leads, owns', by rw [clients, stored, same]⟩
  | stored | beaten => exact ⟨rely.leads_mono fits.1, (rely.locked fits.2.1).1, rely.stored fits.2.2⟩
  | discard => exact ⟨rely.leads_mono fits.1, rely.stored fits.2⟩
  | done => exact ⟨rely.leads_mono fits.1, fits.2.mono rely.stored⟩
  | returned => exact Good.mono fits rely.stored
  | swap => trivial
  | await => exact rely.closed fits
  | range => exact ⟨rely.closed fits.1, (rely.locked fits.2).1⟩
  | ranging =>
    obtain ⟨closed, owns, keys⟩ := fits
    obtain ⟨owns', clients, -⟩ := rely.locked owns
    exact ⟨rely.closed closed, owns', clients ▸ keys⟩
  | visiting =>
    obtain ⟨closed, owns, keys, member⟩ := fits
    obtain ⟨owns', clients, -⟩ := rely.locked owns
    exact ⟨rely.closed closed, owns', clients ▸ keys, clients ▸ member⟩
  | deleting =>
    obtain ⟨closed, owns, keys, visited⟩ := fits
    obtain ⟨owns', clients, -⟩ := rely.locked owns
    rw [← clients] at keys visited
    exact ⟨rely.closed closed, owns', keys, fun client listed => rely.hungUp (visited client listed)⟩
  | closed => exact rely.closed fits

/-- A client is stored under the lock. -/
theorem Fits.owner_of_storing {p : Phase A I} (fits : Fits m stored j p) (storing : p.storing = true) :
    m.owner = some j := by
  cases p with
  | store => exact fits.2.1
  | _ => cases storing

/-- A step that leaves the singleflight group alone. -/
theorem rely_of_flights (closed : m.closed = true → m'.closed = true)
    (locked : m.owner = some j → m'.owner = some j ∧ m'.clients = m.clients ∧ stored' = stored)
    (flights : m'.flights = m.flights) (outcomes : m'.outcomes = m.outcomes) (more : stored ⊆ stored')
    (hungUp : m.hungUp ⊆ m'.hungUp) : Rely m m' stored stored' j where
  closed := closed
  locked := locked
  leads addr := by rw [flights]
  outcome := by rw [outcomes]
  awaits addr leader awaits := by
    rcases awaits with flying | ⟨result, landed, good⟩
    · exact Or.inl (by rwa [flights])
    · exact Or.inr ⟨result, by rwa [outcomes], good.mono more⟩
  stored := more
  hungUp := hungUp

theorem rely_refl (m : ClientCache A I) (stored : List (A × Nat)) (j : I) : Rely m m stored stored j :=
  rely_of_flights id (fun owns => ⟨owns, rfl, rfl⟩) rfl rfl (List.Subset.refl _) (List.Subset.refl _)

/-- A step of the call that holds the lock, or that takes it. -/
theorem rely_of_lock (held : m.owner = none ∨ m.owner = some i) (other : j ≠ i) (closed : m'.closed = m.closed)
    (flights : m'.flights = m.flights) (outcomes : m'.outcomes = m.outcomes) (more : stored ⊆ stored')
    (hungUp : m.hungUp ⊆ m'.hungUp) : Rely m m' stored stored' j := by
  refine rely_of_flights closed.trans (fun owns => ?_) flights outcomes more hungUp
  rcases held with free | mine
  · cases free.symm.trans owns
  · exact absurd (Option.some.inj (owns.symm.trans mine)) other

section Flights

variable [DecidableEq A] {addr : A}

theorem rely_lead (free : m.flights addr = none) (other : j ≠ i) :
    Rely m { m with flights := Function.update m.flights addr (some i) } stored stored j where
  closed := id
  locked owns := ⟨owns, rfl, rfl⟩
  leads addr' := by
    by_cases same : addr' = addr
    · subst same
      simp [free, Ne.symm other]
    · simp [same]
  outcome := rfl
  awaits addr' leader awaits := by
    refine awaits.imp_left fun flying => ?_
    have apart : addr' ≠ addr := by
      rintro rfl
      cases free.symm.trans flying
    exact (Function.update_of_ne apart ..).trans flying
  stored := List.Subset.refl _
  hungUp := List.Subset.refl _

theorem rely_land [DecidableEq I] (leads : Leads m i addr) {result : Except Error Nat}
    (good : Good stored addr result) (other : j ≠ i) :
    Rely m { m with
      flights := Function.update m.flights addr none
      outcomes := Function.update m.outcomes i (some result) } stored stored j where
  closed := id
  locked owns := ⟨owns, rfl, rfl⟩
  leads addr' := by
    by_cases same : addr' = addr
    · subst same
      have flying := (leads.1 addr').mpr rfl
      simp [flying, Ne.symm other]
    · simp [same]
  outcome := Function.update_of_ne other ..
  awaits addr' leader awaits := by
    rcases awaits with flying | ⟨result', landed, good'⟩
    · by_cases apart : addr' = addr
      · -- the call that was waited for is the one that lands
        subst apart
        obtain rfl := Option.some.inj (((leads.1 addr').mpr rfl).symm.trans flying)
        exact Or.inr ⟨result, Function.update_self .., good⟩
      · exact Or.inl ((Function.update_of_ne apart ..).trans flying)
    · have another : leader ≠ i := by
        rintro rfl
        cases leads.2.symm.trans landed
      exact Or.inr ⟨result', (Function.update_of_ne another ..).trans landed, good'⟩
  stored := List.Subset.refl _
  hungUp := List.Subset.refl _

end Flights

end Assertions

/-! ## One step -/

section Guarantee

variable {A I : Type} {m m' : ClientCache A I} {stored stored' : List (A × Nat)} {i : I} {p p' : Phase A I}

/-- A call that is under way has no result. -/
def Flying (m : ClientCache A I) : Prop := ∀ addr leader, m.flights addr = some leader → m.outcomes leader = none

/-- One client for each address was ever stored, and as long as the cache is open all of them are in it. -/
structure Shape (m : ClientCache A I) (stored : List (A × Nat)) : Prop where
  flying : Flying m
  once : (stored.map Prod.fst).Nodup
  inside : m.clients.Sublist stored
  kept : m.closed = false → m.clients = stored

/-- A step of call `i` that leaves the map and the flag alone and dials nothing. -/
structure Quiet (m m' : ClientCache A I) (stored : List (A × Nat)) (i : I) : Prop where
  rely : ∀ j, j ≠ i → Rely m m' stored stored j
  flying : Flying m'
  clients : m'.clients = m.clients
  closed : m'.closed = m.closed
  dialled : m'.dialled = m.dialled
  hungUp : m.hungUp ⊆ m'.hungUp

/-- What a step of call `i` guarantees. -/
structure Guarantee (m : ClientCache A I) (stored : List (A × Nat)) (i : I) (p : Phase A I) (m' : ClientCache A I)
    (stored' : List (A × Nat)) (p' : Phase A I) : Prop where
  rely : ∀ j, j ≠ i → Rely m m' stored stored' j
  closed : m.closed = true → m'.closed = true
  fits : Fits m' stored' i p'
  shape : Shape m' stored'
  hungUp : m.hungUp ⊆ m'.hungUp
  /-- a client in hand stays there, is stored or is closed -/
  hand : ∀ client, p.inHand = some client →
    p'.inHand = some client ∨ (∃ addr, (addr, client) ∈ m'.clients) ∨ client ∈ m'.hungUp
  dials : ∀ client, client < m'.dialled → client < m.dialled ∨ p'.inHand = some client
  drops : ∀ e ∈ m.clients, e ∈ m'.clients ∨ e.2 ∈ m'.hungUp
  adds : p.storing = false → m'.clients ⊆ m.clients
  admits : p'.storing = true → p.storing = true ∨ m.closed = false
  shuts : m'.closed = true → m.closed = true ∨ p'.sweeping = true
  sweeps : p.sweeping = true → p'.sweeping = true ∨ p' = .closed ∧ m'.clients = [] ∧ m.owner = some i
  ends : p = .closed → p' = .closed

/-! ### Quiet steps -/

theorem quiet_refl (flying : Flying m) : Quiet m m stored i :=
  ⟨fun j _ => rely_refl m stored j, flying, rfl, rfl, rfl, List.Subset.refl _⟩

theorem quiet_lock (flying : Flying m) (free : m.owner = none) : Quiet m { m with owner := some i } stored i :=
  ⟨fun _ other => rely_of_lock (Or.inl free) other rfl rfl rfl (List.Subset.refl _) (List.Subset.refl _), flying,
    rfl, rfl, rfl, List.Subset.refl _⟩

theorem quiet_unlock (flying : Flying m) (owns : m.owner = some i) : Quiet m { m with owner := none } stored i :=
  ⟨fun _ other => rely_of_lock (Or.inr owns) other rfl rfl rfl (List.Subset.refl _) (List.Subset.refl _), flying,
    rfl, rfl, rfl, List.Subset.refl _⟩

theorem quiet_hangUp (flying : Flying m) (client : Nat) : Quiet m (m.hangUp client) stored i where
  rely _ _ := rely_of_flights id (fun owns => ⟨owns, rfl, rfl⟩) rfl rfl (List.Subset.refl _) (List.subset_cons_self _ _)
  flying := flying
  clients := rfl
  closed := rfl
  dialled := rfl
  hungUp := List.subset_cons_self _ _

theorem quiet_lead [DecidableEq A] (flying : Flying m) {addr : A} (free : m.flights addr = none) (unled : Unled m i) :
    Quiet m { m with flights := Function.update m.flights addr (some i) } stored i where
  rely _ := rely_lead free
  flying addr' leader flies := by
    replace flies : Function.update m.flights addr (some i) addr' = some leader := flies
    by_cases same : addr' = addr
    · rw [same, Function.update_self] at flies
      obtain rfl := Option.some.inj flies
      exact unled.2
    · rw [Function.update_of_ne same] at flies
      exact flying addr' leader flies
  clients := rfl
  closed := rfl
  dialled := rfl
  hungUp := List.Subset.refl _

theorem quiet_land [DecidableEq A] [DecidableEq I] (flying : Flying m) {addr : A} (leads : Leads m i addr)
    {result : Except Error Nat} (good : Good stored addr result) :
    Quiet m { m with
      flights := Function.update m.flights addr none
      outcomes := Function.update m.outcomes i (some result) } stored i where
  rely _ := rely_land leads good
  flying addr' leader flies := by
    replace flies : Function.update m.flights addr none addr' = some leader := flies
    have apart : addr' ≠ addr := by
      rintro rfl
      rw [Function.update_self] at flies
      cases flies
    rw [Function.update_of_ne apart] at flies
    have another : leader ≠ i := by
      rintro rfl
      exact apart ((leads.1 addr').mp flies)
    exact (Function.update_of_ne another ..).trans (flying addr' leader flies)
  clients := rfl
  closed := rfl
  dialled := rfl
  hungUp := List.Subset.refl _

theorem Quiet.guarantee (quiet : Quiet m m' stored i) (shape : Shape m stored) (fits : Fits m' stored i p')
    (hand : ∀ client, p.inHand = some client → p'.inHand = some client ∨ client ∈ m'.hungUp)
    (admits : p'.storing = true → p.storing = true ∨ m.closed = false)
    (sweeps : p.sweeping = true → p'.sweeping = true ∨ p' = .closed ∧ m'.clients = [] ∧ m.owner = some i)
    (ends : p = .closed → p' = .closed) : Guarantee m stored i p m' stored p' where
  rely := quiet.rely
  closed shut := quiet.closed.trans shut
  fits := fits
  shape := by
    refine ⟨quiet.flying, shape.once, ?_, ?_⟩
    · rw [quiet.clients]
      exact shape.inside
    · rw [quiet.clients, quiet.closed]
      exact shape.kept
  hungUp := quiet.hungUp
  hand client held := (hand client held).imp_right Or.inr
  dials client bound := Or.inl (by rwa [quiet.dialled] at bound)
  drops e listed := Or.inl (by rwa [quiet.clients])
  adds _ := by
    rw [quiet.clients]
    exact List.Subset.refl _
  admits := admits
  shuts shut := Or.inl (by rwa [quiet.closed] at shut)
  sweeps := sweeps
  ends := ends

/-- A quiet step of a `Get`. -/
theorem Quiet.get (quiet : Quiet m m' stored i) (shape : Shape m stored) (getting : p.getting = true)
    (fits : Fits m' stored i p')
    (hand : ∀ client, p.inHand = some client → p'.inHand = some client ∨ client ∈ m'.hungUp)
    (admits : p'.storing = true → p.storing = true ∨ m.closed = false) : Guarantee m stored i p m' stored p' := by
  refine quiet.guarantee shape fits hand admits ?_ ?_
  · intro sweeping
    cases (Phase.not_sweeping_of_getting getting).symm.trans sweeping
  · rintro rfl
    cases getting

/-- A quiet step of a call that empties the cache. -/
theorem Quiet.sweep (quiet : Quiet m m' stored i) (shape : Shape m stored) (sweeping : p.sweeping = true)
    (still : p'.sweeping = true) (fits : Fits m' stored i p') : Guarantee m stored i p m' stored p' := by
  obtain ⟨noHand, -, runs⟩ := Phase.of_sweeping sweeping
  obtain ⟨-, noStore, -⟩ := Phase.of_sweeping still
  refine quiet.guarantee shape fits (fun client held => ?_) (fun storing => ?_) (fun _ => Or.inl still) fun ended => ?_
  · cases noHand.symm.trans held
  · cases noStore.symm.trans storing
  · exact absurd ended runs

/-- A call that stays where it is. -/
theorem guarantee_refl (shape : Shape m stored) (fits : Fits m stored i p) : Guarantee m stored i p m stored p :=
  (quiet_refl shape.flying).guarantee shape fits (fun _ => Or.inl) Or.inl Or.inl id

/-- A call that starts, or a `Close` that finds the cache closed. -/
theorem guarantee_move (shape : Shape m stored) (fits : Fits m stored i p') (hand : p.inHand = none)
    (waits : p.sweeping = false) (runs : p ≠ .closed) (admits : p'.storing = false) :
    Guarantee m stored i p m stored p' := by
  refine (quiet_refl shape.flying).guarantee shape fits (fun client held => ?_) (fun storing => ?_)
    (fun sweeping => ?_) fun ended => absurd ended runs
  · cases hand.symm.trans held
  · cases admits.symm.trans storing
  · cases waits.symm.trans sweeping

/-- A step of a `Get` that only reads. -/
theorem guarantee_read (getting : p.getting = true) (shape : Shape m stored) (fits : Fits m stored i p')
    (hand : p'.inHand = p.inHand) (admits : p'.storing = true → m.closed = false) :
    Guarantee m stored i p m stored p' :=
  (quiet_refl shape.flying).get shape getting fits (fun _ held => Or.inl (hand.trans held))
    fun storing => Or.inr (admits storing)

/-! ### The other steps -/

theorem good_error (addr : A) (err : Error) : Good stored addr (.error err) := by
  intro client same
  cases same

theorem good_ok {addr : A} {client : Nat} (member : (addr, client) ∈ stored) : Good stored addr (.ok client) := by
  rintro _ ⟨⟩
  exact member

theorem Shape.unique (shape : Shape m stored) {addr : A} {client client' : Nat} (first : (addr, client) ∈ stored)
    (second : (addr, client') ∈ stored) : client = client' :=
  congrArg Prod.snd (List.inj_on_of_nodup_map shape.once first second rfl)

theorem guarantee_dial (shape : Shape m stored) {addr : A} (leads : Leads m i addr) :
    Guarantee m stored i (.dial addr) { m with dialled := m.dialled + 1 } stored (.lock addr m.dialled) where
  rely _ _ := rely_of_flights id (fun owns => ⟨owns, rfl, rfl⟩) rfl rfl (List.Subset.refl _) (List.Subset.refl _)
  closed := id
  fits := leads
  shape := ⟨shape.flying, shape.once, shape.inside, shape.kept⟩
  hungUp := List.Subset.refl _
  hand := nofun
  dials _ bound := (Nat.lt_succ_iff_lt_or_eq.mp bound).imp_right fun last => congrArg some last.symm
  drops _ := Or.inl
  adds _ := List.Subset.refl _
  admits := nofun
  shuts := Or.inl
  sweeps := nofun
  ends := nofun

theorem guarantee_shut (shape : Shape m stored) :
    Guarantee m stored i .swap { m with closed := true } stored .await where
  rely _ _ := rely_of_flights (fun _ => rfl) (fun owns => ⟨owns, rfl, rfl⟩) rfl rfl (List.Subset.refl _)
    (List.Subset.refl _)
  closed _ := rfl
  fits := rfl
  shape := ⟨shape.flying, shape.once, shape.inside, nofun⟩
  hungUp := List.Subset.refl _
  hand := nofun
  dials _ := Or.inl
  drops _ := Or.inl
  adds _ := List.Subset.refl _
  admits := nofun
  shuts _ := Or.inr rfl
  sweeps := nofun
  ends := nofun

section Map

variable [DecidableEq A] {addr : A} {client : Nat}

theorem mem_of_lookup {l : List (A × Nat)} (found : l.lookup addr = some client) : (addr, client) ∈ l := by
  obtain ⟨front, back, rfl, -⟩ := List.lookup_eq_some_iff.mp found
  exact List.mem_append_right _ List.mem_cons_self

theorem ne_of_lookup {l : List (A × Nat)} (missing : l.lookup addr = none) {e : A × Nat} (member : e ∈ l) :
    e.1 ≠ addr := by
  rintro rfl
  simpa using List.lookup_eq_none_iff.mp missing e member

/-- The client is the first for its address: one that was there before would be there still. -/
theorem guarantee_store (shape : Shape m stored) (fits : Fits m stored i (.store addr client))
    (missing : m.clients.lookup addr = none) :
    Guarantee m stored i (.store addr client) { m with clients := m.clients ++ [(addr, client)] }
      (stored ++ [(addr, client)]) (.stored addr client) := by
  obtain ⟨leads, owns, same⟩ := fits
  have last : (addr, client) ∈ m.clients ++ [(addr, client)] := List.mem_append_right _ (List.mem_singleton_self _)
  have once : ((stored ++ [(addr, client)]).map Prod.fst).Nodup := by
    rw [List.map_append, List.map_singleton, List.nodup_append]
    refine ⟨shape.once, List.pairwise_singleton _ _, fun addr' listed addr'' new => ?_⟩
    rw [← same] at listed
    obtain ⟨e, member, rfl⟩ := List.mem_map.mp listed
    rw [List.mem_singleton.mp new]
    exact ne_of_lookup missing member
  exact
    { rely := fun _ other => rely_of_lock (Or.inr owns) other rfl rfl rfl (List.subset_append_left _ _)
        (List.Subset.refl _)
      closed := id
      fits := ⟨leads, owns, same ▸ last⟩
      shape := ⟨shape.flying, once, by rw [same], fun _ => by rw [same]⟩
      hungUp := List.Subset.refl _
      hand := fun _ held => Or.inr (Or.inl ⟨addr, Option.some.inj held ▸ last⟩)
      dials := fun _ => Or.inl
      drops := fun _ listed => Or.inl (List.mem_append_left _ listed)
      adds := nofun
      admits := nofun
      shuts := Or.inl
      sweeps := nofun
      ends := nofun }

theorem guarantee_delete (shape : Shape m stored) {rest : List A} (fits : Fits m stored i (.deleting addr rest)) :
    Guarantee m stored i (.deleting addr rest) { m with clients := m.clients.filter fun e => e.1 ≠ addr } stored
      (.ranging rest) := by
  obtain ⟨closed, owns, keys, visited⟩ := fits
  have left (e : A × Nat) (listed : e ∈ m.clients.filter fun e => e.1 ≠ addr) : e.1 ∈ rest := by
    obtain ⟨member, other⟩ := List.mem_filter.mp listed
    exact (List.mem_cons.mp (keys e member)).resolve_left (by simpa using other)
  have drops (e : A × Nat) (listed : e ∈ m.clients) :
      (e ∈ m.clients.filter fun e => e.1 ≠ addr) ∨ e.2 ∈ m.hungUp := by
    by_cases same : e.1 = addr
    · exact Or.inr (visited e.2 (same ▸ listed))
    · exact Or.inl (List.mem_filter.mpr ⟨listed, by simpa using same⟩)
  exact
    { rely := fun _ other => rely_of_lock (Or.inr owns) other rfl rfl rfl (List.Subset.refl _)
        (List.Subset.refl _)
      closed := id
      fits := ⟨closed, owns, left⟩
      shape := ⟨shape.flying, shape.once, List.filter_sublist.trans shape.inside, fun opened => by
        cases closed.symm.trans opened⟩
      hungUp := List.Subset.refl _
      hand := nofun
      dials := fun _ => Or.inl
      drops := drops
      adds := fun _ => List.filter_sublist.subset
      admits := nofun
      shuts := Or.inl
      sweeps := fun _ => Or.inl rfl
      ends := nofun }

end Map

/-- What is left of the keys when one of them is taken out. -/
theorem mem_eraseIdx_or_eq {l : List A} {n : Nat} {x y : A} (found : l[n]? = some y) (member : x ∈ l) :
    x = y ∨ x ∈ l.eraseIdx n := by
  obtain ⟨k, bound, rfl⟩ := List.getElem_of_mem member
  obtain ⟨bound', rfl⟩ := List.getElem?_eq_some_iff.mp found
  by_cases same : k = n
  · subst same
    exact Or.inl rfl
  · exact Or.inr (List.mem_eraseIdx_iff_getElem.mpr ⟨k, bound, same, rfl⟩)

variable [DecidableEq A] [DecidableEq I]

/-- **The steps of `Get`**. -/
theorem guarantee_of_getting (getting : p.getting = true) (shape : Shape m stored) (fits : Fits m stored i p)
    (choice : Nat) (dialErr : Option Error) :
    ∃ stored', Guarantee m stored i p (m.proceed i choice dialErr p).1 stored' (m.proceed i choice dialErr p).2 := by
  have flying := shape.flying
  cases p with
  | idle | swap | await | range | ranging | visiting | deleting | closed => cases getting
  | check addr =>
    refine ⟨stored, ?_⟩
    by_cases closed : m.closed = true
    · simp only [ClientCache.proceed, if_pos closed]
      exact guarantee_read rfl shape (good_error addr _) rfl nofun
    · simp only [ClientCache.proceed, if_neg closed]
      exact guarantee_read rfl shape fits rfl nofun
  | load addr =>
    refine ⟨stored, ?_⟩
    cases found : m.clients.lookup addr with
    | some client =>
      simp only [ClientCache.proceed, found]
      exact guarantee_read rfl shape (good_ok (shape.inside.subset (mem_of_lookup found))) rfl nofun
    | none =>
      simp only [ClientCache.proceed, found]
      exact guarantee_read rfl shape fits rfl nofun
  | enter addr =>
    refine ⟨stored, ?_⟩
    cases flight : m.flights addr with
    | some leader =>
      simp only [ClientCache.proceed, flight]
      exact guarantee_read rfl shape (Or.inl flight) rfl nofun
    | none =>
      simp only [ClientCache.proceed, flight]
      refine (quiet_lead flying flight fits).get shape rfl ⟨fun addr' => ?_, fits.2⟩ nofun nofun
      by_cases same : addr' = addr
      · simp [same]
      · simp [same, fits.1 addr']
  | wait addr leader =>
    refine ⟨stored, ?_⟩
    cases outcome : m.outcomes leader with
    | some result =>
      simp only [ClientCache.proceed, outcome]
      refine guarantee_read rfl shape ?_ rfl nofun
      rcases fits with flies | ⟨result', landed, good⟩
      · cases (flying addr leader flies).symm.trans outcome
      · obtain rfl := Option.some.inj (landed.symm.trans outcome)
        exact good
    | none =>
      simp only [ClientCache.proceed, outcome]
      exact guarantee_read rfl shape fits rfl nofun
  | inner addr =>
    refine ⟨stored, ?_⟩
    cases found : m.clients.lookup addr with
    | some client =>
      simp only [ClientCache.proceed, found]
      exact guarantee_read rfl shape ⟨fits, good_ok (shape.inside.subset (mem_of_lookup found))⟩ rfl nofun
    | none =>
      simp only [ClientCache.proceed, found]
      exact guarantee_read rfl shape fits rfl nofun
  | dial addr =>
    refine ⟨stored, ?_⟩
    cases dialErr with
    | some err => exact guarantee_read rfl shape ⟨fits, good_error addr err⟩ rfl nofun
    | none => exact guarantee_dial shape fits
  | lock addr client =>
    refine ⟨stored, ?_⟩
    cases owner : m.owner with
    | some _ =>
      simp only [ClientCache.proceed, owner]
      exact guarantee_read rfl shape fits rfl nofun
    | none =>
      simp only [ClientCache.proceed, owner]
      exact (quiet_lock flying owner).get shape rfl ⟨fits, rfl⟩ (fun _ => Or.inl) nofun
  | locked addr client =>
    refine ⟨stored, ?_⟩
    by_cases closed : m.closed = true
    · simp only [ClientCache.proceed, if_pos closed]
      exact guarantee_read rfl shape fits rfl nofun
    · -- nothing was deleted from an open cache, and nothing will be while the call holds the lock
      simp only [ClientCache.proceed, if_neg closed]
      have opened : m.closed = false := Bool.eq_false_iff.mpr closed
      exact guarantee_read rfl shape ⟨fits.1, fits.2, shape.kept opened⟩ rfl fun _ => opened
  | refuse addr client => exact ⟨stored, (quiet_unlock flying fits.2).get shape rfl fits.1 (fun _ => Or.inl) nofun⟩
  | refused addr client =>
    refine ⟨stored, (quiet_hangUp flying client).get shape rfl ⟨fits, good_error addr _⟩ (fun c held => ?_) nofun⟩
    exact Or.inr (Option.some.inj held ▸ List.mem_cons_self)
  | store addr client =>
    cases found : m.clients.lookup addr with
    | some actual =>
      simp only [ClientCache.proceed, found]
      have member := shape.inside.subset (mem_of_lookup found)
      exact ⟨stored, guarantee_read rfl shape ⟨fits.1, fits.2.1, member⟩ rfl nofun⟩
    | none =>
      simp only [ClientCache.proceed, found]
      exact ⟨_, guarantee_store shape fits found⟩
  | stored addr client =>
    exact ⟨stored, (quiet_unlock flying fits.2.1).get shape rfl ⟨fits.1, good_ok fits.2.2⟩ nofun nofun⟩
  | beaten addr client actual =>
    exact ⟨stored, (quiet_unlock flying fits.2.1).get shape rfl ⟨fits.1, fits.2.2⟩ (fun _ => Or.inl) nofun⟩
  | discard addr client actual =>
    refine ⟨stored, (quiet_hangUp flying client).get shape rfl ⟨fits.1, good_ok fits.2⟩ (fun c held => ?_) nofun⟩
    exact Or.inr (Option.some.inj held ▸ List.mem_cons_self)
  | done addr result => exact ⟨stored, (quiet_land flying fits.1 fits.2).get shape rfl fits.2 nofun nofun⟩
  | returned addr result => exact ⟨stored, guarantee_read rfl shape fits rfl nofun⟩

/-- `Range` goes on to the next key, or ends. -/
theorem guarantee_ranging (shape : Shape m stored) {rest : List A} (fits : Fits m stored i (.ranging rest))
    (choice : Nat) (dialErr : Option Error) :
    Guarantee m stored i (.ranging rest) (m.proceed i choice dialErr (.ranging rest)).1 stored
      (m.proceed i choice dialErr (.ranging rest)).2 := by
  obtain ⟨closed, owns, keys⟩ := fits
  cases next : rest[choice % rest.length]? with
  | none =>
    simp only [ClientCache.proceed, next]
    have visited : rest = [] := by
      by_contra more
      have bound := Nat.mod_lt choice (List.length_pos_of_ne_nil more)
      cases next.symm.trans (List.getElem?_eq_getElem bound)
    have empty : m.clients = [] := by
      refine List.eq_nil_iff_forall_not_mem.mpr fun e listed => ?_
      have left := keys e listed
      rw [visited] at left
      cases left
    exact (quiet_unlock shape.flying owns).guarantee shape closed nofun nofun (fun _ => Or.inr ⟨rfl, empty, owns⟩) nofun
  | some addr =>
    cases found : m.clients.lookup addr with
    | none =>
      simp only [ClientCache.proceed, next, found]
      refine (quiet_refl shape.flying).sweep shape rfl rfl ⟨closed, owns, fun e listed => ?_⟩
      exact (mem_eraseIdx_or_eq next (keys e listed)).resolve_left (ne_of_lookup found listed)
    | some client =>
      simp only [ClientCache.proceed, next, found]
      refine (quiet_refl shape.flying).sweep shape rfl rfl ⟨closed, owns, fun e listed => ?_, mem_of_lookup found⟩
      exact List.mem_cons.mpr (mem_eraseIdx_or_eq next (keys e listed))

/-- **The steps of `Close`**. -/
theorem guarantee_of_closing (closing : p.getting = false) (shape : Shape m stored) (fits : Fits m stored i p)
    (choice : Nat) (dialErr : Option Error) :
    Guarantee m stored i p (m.proceed i choice dialErr p).1 stored (m.proceed i choice dialErr p).2 := by
  have flying := shape.flying
  cases p with
  | idle | closed => exact guarantee_refl shape fits
  | swap =>
    by_cases closed : m.closed = true
    · simp only [ClientCache.proceed, if_pos closed]
      exact guarantee_move shape closed rfl rfl (by simp) rfl
    · simp only [ClientCache.proceed, if_neg closed]
      exact guarantee_shut shape
  | await =>
    cases owner : m.owner with
    | some _ =>
      simp only [ClientCache.proceed, owner]
      exact (quiet_refl flying).sweep shape rfl rfl fits
    | none =>
      simp only [ClientCache.proceed, owner]
      exact (quiet_lock flying owner).sweep shape rfl rfl ⟨fits, rfl⟩
  | range =>
    refine (quiet_refl flying).sweep shape rfl rfl ⟨fits.1, fits.2, ?_⟩
    exact fun e listed => List.mem_map_of_mem listed
  | ranging rest => exact guarantee_ranging shape fits choice dialErr
  | visiting addr client rest =>
    obtain ⟨closed, owns, keys, member⟩ := fits
    refine (quiet_hangUp flying client).sweep shape rfl rfl ⟨closed, owns, keys, fun client' listed => ?_⟩
    rw [shape.unique (shape.inside.subset listed) (shape.inside.subset member)]
    exact List.mem_cons_self
  | deleting addr rest => exact guarantee_delete shape fits
  | _ => cases closing

/-- **One step** of any call. -/
theorem guarantee_next (shape : Shape m stored) (fits : Fits m stored i p) (input : CacheInput A) :
    ∃ stored', Guarantee m stored i p (m.next i p input).1 stored' (m.next i p input).2 := by
  cases input with
  | get addr =>
    refine ⟨stored, ?_⟩
    cases p with
    | idle => exact guarantee_move shape fits rfl rfl (by simp) rfl
    | _ => exact guarantee_refl shape fits
  | close =>
    refine ⟨stored, ?_⟩
    cases p with
    | idle => exact guarantee_move shape trivial rfl rfl (by simp) rfl
    | _ => exact guarantee_refl shape fits
  | go choice dialErr =>
    cases getting : p.getting with
    | true => exact guarantee_of_getting getting shape fits choice dialErr
    | false => exact ⟨stored, guarantee_of_closing getting shape fits choice dialErr⟩

end Guarantee

/-! ## Whole runs -/

section System

variable {A I : Type}

/-- Call `w` closed the cache: it has still to empty it, or the cache is empty and no call is about to
store a client. -/
def Sweeps (s : CacheSystem A I) (w : I) : Prop :=
  (s.phases w).sweeping = true ∨
    s.phases w = .closed ∧ s.mem.clients = [] ∧ ∀ j, (s.phases j).storing = false

/-- The invariant: the assertions of all calls; every client that was dialled is closed, in the cache or in
the hand of a call; and a closed cache is emptied. -/
structure CacheInv (s : CacheSystem A I) (stored : List (A × Nat)) : Prop where
  shape : Shape s.mem stored
  fits : ∀ i, Fits s.mem stored i (s.phases i)
  accounted : ∀ client, client < s.mem.dialled →
    client ∈ s.mem.hungUp ∨ (∃ addr, (addr, client) ∈ s.mem.clients) ∨ ∃ i, (s.phases i).inHand = some client
  swept : s.mem.closed = true → ∃ w, Sweeps s w

variable {s : CacheSystem A I} {stored : List (A × Nat)}

theorem cacheInv_start : CacheInv (CacheSystem.start : CacheSystem A I) [] where
  shape := ⟨nofun, List.nodup_nil, List.Sublist.refl _, fun _ => rfl⟩
  fits _ := ⟨nofun, rfl⟩
  accounted := nofun
  swept := nofun

variable [DecidableEq A] [DecidableEq I]

namespace CacheInv

variable {i : I} {input : CacheInput A} {stored' : List (A × Nat)}

theorem accounted_step (inv : CacheInv s stored)
    (step : Guarantee s.mem stored i (s.phases i) (s.mem.next i (s.phases i) input).1 stored'
      (s.mem.next i (s.phases i) input).2) :
    let s' := s.step ClientCache.next (i, input)
    ∀ client, client < s'.mem.dialled →
      client ∈ s'.mem.hungUp ∨ (∃ addr, (addr, client) ∈ s'.mem.clients) ∨ ∃ i, (s'.phases i).inHand = some client := by
  intro s' client bound
  have own : (s'.phases i) = (s.mem.next i (s.phases i) input).2 := Threads.phases_step_self i input
  rcases step.dials client bound with old | mine
  · rcases inv.accounted client old with closed | ⟨addr, listed⟩ | ⟨j, held⟩
    · exact Or.inl (step.hungUp closed)
    · rcases step.drops _ listed with stays | closed
      · exact Or.inr (Or.inl ⟨addr, stays⟩)
      · exact Or.inl closed
    · by_cases self : j = i
      · subst self
        rcases step.hand client held with still | stored | closed
        · exact Or.inr (Or.inr ⟨j, by rwa [own]⟩)
        · exact Or.inr (Or.inl stored)
        · exact Or.inl closed
      · exact Or.inr (Or.inr ⟨j, by rwa [Threads.phases_step_ne self]⟩)
  · exact Or.inr (Or.inr ⟨i, by rwa [own]⟩)

theorem swept_step (inv : CacheInv s stored)
    (step : Guarantee s.mem stored i (s.phases i) (s.mem.next i (s.phases i) input).1 stored'
      (s.mem.next i (s.phases i) input).2) :
    let s' := s.step ClientCache.next (i, input)
    s'.mem.closed = true → ∃ w, Sweeps s' w := by
  intro s' shut
  have own : s'.phases i = (s.mem.next i (s.phases i) input).2 := Threads.phases_step_self i input
  have others {j : I} (other : j ≠ i) : s'.phases j = s.phases j := Threads.phases_step_ne other input
  rcases step.shuts shut with closed | starts
  · obtain ⟨w, sweeping | ⟨ended, empty, quiet⟩⟩ := inv.swept closed
    · by_cases self : w = i
      · subst self
        refine ⟨w, (step.sweeps sweeping).imp (fun still => by rwa [own]) fun ⟨ended, empty, owns⟩ => ?_⟩
        refine ⟨own.trans ended, empty, fun j => ?_⟩
        by_cases same : j = w
        · rw [same, own, ended]
          rfl
        · -- the lock is in the hand of `w`
          rw [others same, Bool.eq_false_iff]
          intro storing
          exact same (Option.some.inj (((inv.fits j).owner_of_storing storing).symm.trans owns))
      · exact ⟨w, Or.inl (by rwa [others self])⟩
    · refine ⟨w, Or.inr ⟨?_, ?_, fun j => ?_⟩⟩
      · by_cases self : w = i
        · subst self
          exact own.trans (step.ends ended)
        · exact (others self).trans ended
      · have fewer := step.adds (quiet i)
        rw [empty] at fewer
        exact List.subset_nil.mp fewer
      · by_cases self : j = i
        · subst self
          rw [own, Bool.eq_false_iff]
          intro storing
          rcases step.admits storing with stored | opened
          · cases (quiet j).symm.trans stored
          · cases closed.symm.trans opened
        · rw [others self]
          exact quiet j
  · exact ⟨i, Or.inl (by rwa [own])⟩

/-- **One step** keeps the invariant. -/
theorem step (inv : CacheInv s stored) (a : I × CacheInput A) :
    ∃ stored', CacheInv (s.step ClientCache.next a) stored' := by
  obtain ⟨i, input⟩ := a
  obtain ⟨stored', step⟩ := guarantee_next inv.shape (inv.fits i) input
  refine ⟨stored', step.shape, ?_, inv.accounted_step step, inv.swept_step step⟩
  exact Threads.forall_step inv.fits step.fits fun j other p fits => fits.mono (step.rely j other)

end CacheInv

/-- What becomes of a call that starts after the cache was closed: it has not come to the check of
`closed` yet, or it was refused. -/
def Late : Phase A I → Prop
  | .idle | .check _ | .swap | .closed => True
  | .returned _ result => result = .error cacheClosed
  | _ => False

theorem late_next {m : ClientCache A I} (closed : m.closed = true) {p : Phase A I} (late : Late p) (i : I)
    (input : CacheInput A) : Late (m.next i p input).2 := by
  cases p with
  | idle => cases input <;> trivial
  | check addr =>
    cases input with
    | get | close => trivial
    | go => simp only [ClientCache.next, ClientCache.proceed, if_pos closed, Late]
  | swap =>
    cases input with
    | get | close => trivial
    | go => simp only [ClientCache.next, ClientCache.proceed, if_pos closed, Late]
  | returned addr result => cases input <;> exact late
  | closed => cases input <;> trivial
  | _ => cases late

/-- A closed cache stays closed, and a call that is late stays so. -/
theorem late_run (inv : CacheInv s stored) (closed : s.mem.closed = true) {i : I} (late : Late (s.phases i))
    (more : List (I × CacheInput A)) :
    (runFrom (Threads.step ClientCache.next) s more).mem.closed = true ∧
      Late ((runFrom (Threads.step ClientCache.next) s more).phases i) := by
  refine And.right (runFrom_invariant
    (I := fun _ s => (∃ stored, CacheInv s stored) ∧ s.mem.closed = true ∧ Late (s.phases i))
    ⟨⟨stored, inv⟩, closed, late⟩ (fun _ t a kept => ?_) more)
  obtain ⟨⟨_, inv⟩, closed, late⟩ := kept
  obtain ⟨_, step⟩ := guarantee_next inv.shape (inv.fits a.1) a.2
  refine ⟨inv.step a, step.closed closed, ?_⟩
  exact Threads.exists_step late (fun late => late_next closed late a.1 a.2) fun _ => id

/-- A cache that is done with: it is empty, every client that was dialled is closed, and every `Get` that
starts from now on is refused when it comes to the check. -/
structure Drained (s : CacheSystem A I) : Prop where
  empty : s.mem.clients = []
  hungUp : ∀ client, client < s.mem.dialled → client ∈ s.mem.hungUp
  late : ∀ more i, s.phases i = .idle → Late ((runFrom (Threads.step ClientCache.next) s more).phases i)
  refuses : ∀ more i addr choice dialErr,
    (runFrom (Threads.step ClientCache.next) s more).phases i = .check addr →
    (runFrom (Threads.step ClientCache.next) s (more ++ [(i, .go choice dialErr)])).phases i =
      .returned addr (.error cacheClosed)

theorem CacheInv.drained (inv : CacheInv s stored) (ended : ∃ i, s.phases i = .closed)
    (rest : ∀ i, (s.phases i).atRest = true) : Drained s := by
  obtain ⟨i, ended⟩ := ended
  have closed : s.mem.closed = true := by
    have fits := inv.fits i
    rwa [ended] at fits
  have empty : s.mem.clients = [] := by
    obtain ⟨w, sweeping | ⟨-, empty, -⟩⟩ := inv.swept closed
    · cases (Phase.of_atRest (rest w)).2.symm.trans sweeping
    · exact empty
  refine ⟨empty, fun client bound => ?_, fun more i idle => ?_, fun more j addr choice dialErr check => ?_⟩
  · rcases inv.accounted client bound with hungUp | ⟨addr, listed⟩ | ⟨j, held⟩
    · exact hungUp
    · rw [empty] at listed
      cases listed
    · cases (Phase.of_atRest (rest j)).1.symm.trans held
  · refine (late_run inv closed ?_ more).2
    rw [idle]
    trivial
  · have closed' := (late_run (i := i) inv closed (by rw [ended]; trivial) more).1
    rw [runFrom_snoc, Threads.phases_step_self, check]
    exact if_pos closed'

/-- **The client cache** neither leaks nor duplicates connections, in any interleaving of any calls: an
address has one client in it; two calls of `Get` that succeed for one address return the same
client; and when all calls have returned and one of them was a `Close`, the cache is done with. -/
theorem client_cache_safe (actions : List (I × CacheInput A)) :
    let s := runFrom (Threads.step ClientCache.next) (CacheSystem.start : CacheSystem A I) actions
    (s.mem.clients.map Prod.fst).Nodup ∧
      (∀ i j addr client client', s.phases i = .returned addr (.ok client) →
        s.phases j = .returned addr (.ok client') → client = client') ∧
      ((∃ i, s.phases i = .closed) → (∀ i, (s.phases i).atRest = true) → Drained s) := by
  intro s
  obtain ⟨stored, inv⟩ : ∃ stored, CacheInv s stored :=
    runFrom_invariant (I := fun _ s => ∃ stored, CacheInv s stored) ⟨[], cacheInv_start⟩
      (fun _ _ a ⟨_, inv⟩ => inv.step a) actions
  refine ⟨inv.shape.once.sublist (inv.shape.inside.map _), ?_, inv.drained⟩
  intro i j addr client client' first second
  have fits := inv.fits i
  have fits' := inv.fits j
  rw [first] at fits
  rw [second] at fits'
  exact inv.shape.unique (fits client rfl) (fits' client' rfl)

end System

/-- Four calls: two of `Get` for one address, one for another, and a `Close`. -/
inductive Caller where
  | first
  | second
  | straddler
  | closer
  deriving DecidableEq

def turns (i : Caller) (n : Nat) : List (Caller × CacheInput Bytes) := List.replicate n (i, .go 0 none)

/-- The second call waits for the dial of the first; the dial of the third straddles the `Close`. -/
def straddled : List (Caller × CacheInput Bytes) :=
  (.first, .get [97]) :: turns .first 3 ++ (.second, .get [97]) :: turns .second 3 ++ turns .first 7 ++
    turns .second 1 ++ (.straddler, .get [98]) :: turns .straddler 5 ++ (.closer, .close) :: turns .closer 7 ++
    turns .straddler 5

theorem client_cache_safe_straddled :
    let s := runFrom (Threads.step ClientCache.next) CacheSystem.start straddled
    s.phases .first = .returned [97] (.ok 0) ∧ s.phases .second = .returned [97] (.ok 0) ∧
      s.phases .straddler = .returned [98] (.error cacheClosed) ∧ s.mem.dialled = 2 ∧ Drained s :=
  ⟨rfl, rfl, rfl, rfl, (client_cache_safe straddled).2.2 ⟨.closer, rfl⟩ fun i => by cases i <;> rfl⟩

end Oryx.Cluster
