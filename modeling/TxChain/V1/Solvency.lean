import TxChain.Library.Run
import TxChain.V1.Steps

/-!
# Balances over runs

The only guard of a transfer compares the sender's balance with the amount. It keeps balances
from falling below zero as long as amounts are not negative; a negative amount passes it
always and takes coins from the receiver. The parties of the ledger never change, so while
nobody is below zero all balances stay below the base times their number.
-/

namespace TxChain.V1

open Scan Numeral Transfers

/-- No balance is negative after the step, and only the named sender's is lowered by it. -/
structure Sound (net : Network) (i : Input) : Prop where
  nonneg : ∀ user, 0 ≤ (step net i).balance user
  lowered : ∀ user, (step net i).balance user < net.balance user →
    i.transfer.map (·.1) = some user

/-- Both parties are found. A receiver of the reserved name is found only if a row is shared
with the sender. -/
def Met (net : Network) (s r : Text) : Prop :=
  Occurs net.transfers s ∧ Occurs net.transfers r ∧
    ¬(r = ['*'] ∧ s ≠ ['*'] ∧ ∀ t ∈ net.transfers, t.Names s → ¬t.Names r)

/-- No transfer of a negative amount between two different parties that are both found. -/
def Guarded (net : Network) (i : Input) : Prop :=
  ∀ s r amount, i.transfer = some (s, r, amount) → 0 ≤ amount.toInt ∨ s = r ∨ ¬Met net s r

/-- Nobody is below zero, and the parties are few enough for a balance to fit. -/
structure Solvent (net : Network) : Prop where
  stored : ∃ part, net.Stores part
  nonneg : ∀ user, 0 ≤ net.balance user
  capacity : 1000 * (parties net.transfers).card < 2 ^ 63

variable {part : Server → List Row} {net : Network} {i : Input}

theorem Solvent.fits (h : Solvent net) (user : Text) : Fits (net.balance user) := by
  have hcapacity := h.capacity
  have hhigh : net.balance user ≤ 1000 * (parties net.transfers).card ∨
      net.balance user = 1000 := by
    by_cases hoccurs : Occurs net.transfers user
    · exact .inl (holding_le h.nonneg hoccurs)
    · exact .inr (holding_of_not_occurs hoccurs)
  have hlow := h.nonneg user
  constructor
  · omega
  · rcases hhigh with hhigh | hhigh
    · omega
    · omega

/-- The accepted transfers, in terms of balances. -/
theorem Solvent.accepted_iff (h : Solvent net) (hstores : net.Stores part) (s r : Text)
    (amount : Int64) :
    Accepted (rowsOf part) s r amount ↔ Met net s r ∧ amount.toInt ≤ net.balance s := by
  have hfits := h.fits s
  rw [hstores.balance] at hfits ⊢
  rw [Accepted, Int64.le_iff_toInt_le, hfits.toInt, reaches_iff, Met, hstores.transfers]
  simp only [Knows, Hidden, List.forall_mem_map]
  tauto

/-! ### One step -/

theorem transfers_append (hstores : net.Stores part) (pick : Server) (serial : Int64) (a b : Name)
    (amount : Int64) :
    (net.append pick (Row.written serial a b amount)).transfers.Perm
      (net.transfers ++ [⟨a.text, b.text, amount.toInt⟩]) := by
  have hrow : (Row.written serial a b amount).transfer = ⟨a.text, b.text, amount.toInt⟩ := by
    simp [Row.transfer, Row.written]
  rw [(hstores.append pick _).transfers, hstores.transfers, ← hrow, ← List.map_singleton,
    ← List.map_append]
  exact (rowsOf_appendRow part pick _).map _

theorem balance_append (hstores : net.Stores part) (pick : Server) (serial : Int64) (a b : Name)
    (amount : Int64) (user : Text) :
    (net.append pick (Row.written serial a b amount)).balance user = net.balance user +
      ((Transfer.mk a.text b.text amount.toInt).received user -
        (Transfer.mk a.text b.text amount.toInt).sent user) := by
  rw [Network.balance, holding_perm (transfers_append hstores pick serial a b amount),
    holding_concat, Network.balance]

theorem balance_of_backend {net' : Network} (h : net'.backend = net.backend) (user : Text) :
    net'.balance user = net.balance user := by
  rw [Network.balance, transfers_of_backend h, Network.balance]

/-- A recorded transfer is sound exactly when its amount is not negative or nobody else is
involved. -/
theorem Solvent.sound_append_iff (h : Solvent net) {t : Transfer Text}
    (hbalance : ∀ user, (step net i).balance user = net.balance user +
      (t.received user - t.sent user))
    (hsender : i.transfer.map (·.1) = some t.sender) (hfunds : t.amount ≤ net.balance t.sender) :
    Sound net i ↔ 0 ≤ t.amount ∨ t.sender = t.receiver := by
  constructor
  · intro hsound
    by_contra hbad
    obtain ⟨hnegative, hne⟩ := not_or.mp hbad
    -- The receiver pays, and is not the named sender.
    have hpays : (step net i).balance t.receiver < net.balance t.receiver := by
      rw [hbalance, received_sub_sent_receiver rfl hne]
      omega
    have hnamed := hsound.lowered t.receiver hpays
    rw [hsender] at hnamed
    exact hne (Option.some.inj hnamed)
  · intro hamount
    have hchange : ∀ user, t.sender ≠ user → 0 ≤ t.received user - t.sent user := by
      intro user hs
      by_cases hr : t.receiver = user
      · rw [received_sub_sent_receiver hr hs]
        exact hamount.resolve_right fun hself => hs (hself.trans hr)
      · rw [received_sub_sent_unnamed (not_or.mpr ⟨hs, hr⟩)]
    constructor
    · intro user
      have hnonneg := h.nonneg user
      rw [hbalance]
      by_cases hs : t.sender = user
      · subst hs
        by_cases hr : t.receiver = t.sender
        · rw [received_sub_sent_self hr.symm]
          omega
        · rw [received_sub_sent_sender rfl hr]
          omega
      · have hgrows := hchange user hs
        omega
    · intro user hlowered
      rw [hbalance] at hlowered
      rw [hsender]
      by_contra hother
      have hgrows := hchange user fun hs => hother (congrArg some hs)
      omega

/-- A step is sound exactly when it is guarded. -/
theorem Solvent.sound_iff (h : Solvent net) (i : Input) : Sound net i ↔ Guarded net i := by
  obtain ⟨part, hstores⟩ := h.stored
  rcases serve_cases hstores i with
    ⟨pick, a, b, amount, left, hasked, haccepted, hserve⟩ | ⟨hrefused, hbackend, -⟩
  · obtain ⟨hmet, hfunds⟩ := (h.accepted_iff hstores _ _ _).mp haccepted
    have hbalance := balance_append hstores pick (nextSerial (rowsOf part)) a b amount
    have hstep : step net i =
        net.append pick (Row.written (nextSerial (rowsOf part)) a b amount) :=
      congrArg Prod.fst hserve
    rw [← hstep] at hbalance
    have hsender : i.transfer.map (·.1) = some a.text := by rw [hasked, Option.map_some]
    rw [h.sound_append_iff hbalance hsender hfunds]
    constructor
    · intro hamount s r amount' hasked'
      rw [hasked] at hasked'
      cases hasked'
      exact hamount.imp_right .inl
    · intro hguarded
      exact (hguarded _ _ _ hasked).imp_right fun hself => hself.resolve_right (not_not.mpr hmet)
  · have hsame : ∀ user, (step net i).balance user = net.balance user :=
      balance_of_backend hbackend
    refine iff_of_true ⟨fun user => ?_, fun user hlowered => ?_⟩ fun s r amount hasked => ?_
    · rw [hsame]
      exact h.nonneg user
    · rw [hsame] at hlowered
      exact absurd hlowered (lt_irrefl _)
    · by_contra hbad
      simp only [not_or, not_le, not_not] at hbad
      have hnonneg := h.nonneg s
      have hfunds : amount.toInt ≤ net.balance s := by omega
      exact hrefused s r amount hasked ((h.accepted_iff hstores s r amount).mpr ⟨hbad.2.2, hfunds⟩)

/-- Sound steps keep a network solvent: they bring in no new party. -/
theorem Solvent.step (h : Solvent net) (hsound : Sound net i) : Solvent (step net i) := by
  obtain ⟨part, hstores⟩ := h.stored
  rcases serve_cases hstores i with
    ⟨pick, a, b, amount, left, hasked, haccepted, hserve⟩ | ⟨hrefused, hbackend, -⟩
  · obtain ⟨hmet, hfunds⟩ := (h.accepted_iff hstores _ _ _).mp haccepted
    have hstep : V1.step net i =
        net.append pick (Row.written (nextSerial (rowsOf part)) a b amount) := by
      rw [V1.step, hserve]
    refine ⟨⟨_, hstep ▸ hstores.append pick _⟩, hsound.nonneg, ?_⟩
    rw [hstep, parties_perm (transfers_append hstores pick _ a b amount),
      parties_concat hmet.1 hmet.2.1]
    exact h.capacity
  · refine ⟨⟨part, ?_⟩, hsound.nonneg, ?_⟩
    · intro j
      rw [V1.step, hbackend]
      exact hstores j
    · rw [V1.step, transfers_of_backend hbackend]
      exact h.capacity

/-! ### Runs -/

theorem balances_never_negative_iff (hstores : net.Stores part)
    (hstart : ∀ user, 0 ≤ net.balance user)
    (hcapacity : 1000 * (parties net.transfers).card < 2 ^ 63) (inputs : List Input) :
    (∀ m ∈ Run.moves step net inputs, Sound m.1 m.2) ↔
      ∀ m ∈ Run.moves step net inputs, Guarded m.1 m.2 := by
  have hsolvent : Solvent net := ⟨⟨part, hstores⟩, hstart, hcapacity⟩
  exact Run.moves_iff (fun _ _ h hsound => Solvent.step h hsound)
    (fun _ i h => Solvent.sound_iff h i) hsolvent inputs

section Samples

def negative : Name := ⟨['-', '2', '0', '0', '0'], ⟨by decide, by simp [isSpace]⟩, by decide⟩

theorem balance_starPart (user : Text) : 0 ≤ (Network.ofRows starPart).balance user := by
  rw [(stores_ofRows starPart).balance]
  have hbase : INITIAL_BALANCE.toInt = 1000 := by decide
  simp only [V1.balance, rowsOf, starPart, List.nil_append, List.singleton_append,
    List.map_cons, List.map_nil, holding_cons, holding_nil, hbase, Row.transfer, Row.written,
    Transfer.received, Transfer.sent, Literal.value_ofInt]
  have hfirst : (155 : Int64).toInt = 155 := by decide
  have hsecond : (5 : Int64).toInt = 5 := by decide
  rw [hfirst, hsecond]
  split_ifs <;> omega

/-- Ali and Luke pay each other, with a request for the list and one that moves nothing
between them. -/
def settlingRun : List Input :=
  [.client (txcoinsRequest ali luke hundred) .B, .monitor TXLIST,
    .client (txcoinsRequest ali ali negative) .A, .client (txcoinsRequest luke ali hundred) .C]

theorem guarded_txcoins (net : Network) {s r a : Name} (pick : Server)
    (h : 0 ≤ (strtol a.text).toInt ∨ s = r) :
    Guarded net (.client (txcoinsRequest s r a) pick) := by
  intro s' r' amount hasked
  rw [Input.transfer, parseRequest_txcoins] at hasked
  cases hasked
  exact h.imp_right fun hsame => .inl (congrArg Name.text hsame)

theorem settlingRun_guarded (net : Network) : ∀ i ∈ settlingRun, Guarded net i := by
  have hhundred : 0 ≤ (strtol hundred.text).toInt := by decide +kernel
  simp only [settlingRun, List.forall_mem_cons]
  exact ⟨guarded_txcoins net .B (.inl hhundred), nofun, guarded_txcoins net .A (.inr rfl),
    guarded_txcoins net .C (.inl hhundred), nofun⟩

end Samples

/-- No step of that run leaves anyone overdrawn. -/
theorem sound_settlingRun :
    (Run.moves step (Network.ofRows starPart) settlingRun).length = 4 ∧
      ∀ m ∈ Run.moves step (Network.ofRows starPart) settlingRun, Sound m.1 m.2 := by
  have hcapacity : 1000 * (parties (Network.ofRows starPart).transfers).card < 2 ^ 63 := by
    decide +kernel
  have hrun := balances_never_negative_iff (stores_ofRows starPart) balance_starPart hcapacity
    settlingRun
  exact ⟨rfl, hrun.mpr fun m hm => settlingRun_guarded m.1 m.2 (Run.mem_of_moves hm).2⟩

/-- Ali takes 2000 coins from Luke by sending a negative amount. -/
theorem luke_overdrawn :
    (∀ user, 0 ≤ (Network.ofRows starPart).balance user) ∧
    (step (Network.ofRows starPart) (.client (txcoinsRequest ali luke negative) .B)).balance
      luke.text = -850 ∧
    ¬Sound (Network.ofRows starPart) (.client (txcoinsRequest ali luke negative) .B) := by
  have hoverdrawn : (step (Network.ofRows starPart)
      (.client (txcoinsRequest ali luke negative) .B)).balance luke.text = -850 := by
    decide +kernel
  refine ⟨balance_starPart, hoverdrawn, fun hsound => ?_⟩
  have hnonneg := hsound.nonneg luke.text
  rw [hoverdrawn] at hnonneg
  omega

end TxChain.V1
