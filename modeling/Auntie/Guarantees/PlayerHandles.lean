import Auntie.Guarantees.Handles
import Auntie.Source.Player.Entry

/-!
# Handles of the player's enclave

The wallets, the advice of the deposit and the output of the functionality, kept in the static
variables of `core.c` from one ECALL to another. Each is given back at most once and not used
after it; between two ECALLs all of them are live, and the advice is there as long as the
state machine is to consume it.
-/

namespace Auntie.Guarantees.PlayerHandles
open Auntie.Source Auntie.Source.Player Auntie.Interaction Handles
open Blocks (Digest)

section Statement

def wallets (globals : Globals) : List Wallet :=
  globals.depositWallet.toList ++ globals.payoutWallet.toList

/-- The handles in the static variables of `core.c`. -/
def owned (globals : Globals) : List Object :=
  globals.depositWallet.elim [] walletObjects ++ globals.payoutWallet.elim [] walletObjects ++
    globals.depositAdvice.toList.map (.advice, ·) ++
    globals.functionalityOutput.toList.map fun output => (.heap, output.address)

/-- The kinds of objects that no call is handed after they have been given back, whether or not
they are kept. -/
def lasting : List Owner := [.key, .address, .advice, .partialTransaction, .signature]

def readsOutput {β : Type} : Call Callback β → Prop
  | .callback (.ocallSettle _ _ _ _) => True
  | _ => False

/-- No call is handed, or reads, a handle that is not live. -/
structure Sound {β : Type} (globals : Globals) (m : Memory) (c : Call Callback β) : Prop where
  calls : Handles.Sound lasting (owned globals) (wallets globals) m c
  output : readsOutput c → ∀ output, globals.functionalityOutput = some output →
    (.heap, output.address) ∈ m.live

/-- Between two ECALLs every handle is live, and the advice is there for the confirmation. -/
structure Kept (globals : Globals) (m : Memory) : Prop where
  live : ∀ object ∈ owned globals, object ∈ m.live
  advice : globals.state = .deposited ∨ globals.state = .gotDeposits →
    ∃ advice, globals.depositAdvice = some advice ∧ (.advice, advice) ∈ m.live

end Statement

section Holding
variable {rest : List Object} {globals last : Globals} {m : Memory}

/-- The handles are live, together with other objects that are none of them. -/
structure Holding (rest : List Object) (globals : Globals) (m : Memory) : Prop where
  keeping : Keeping (owned globals ++ rest) 0 m
  apart : ∀ object ∈ rest, object ∉ owned globals

theorem owned_kinds : ∀ object ∈ owned globals, object.1 ≠ .transaction := by
  intro object hobject
  simp only [owned, List.mem_append, List.mem_map, Option.mem_toList] at hobject
  rcases hobject with ((hdeposit | hpayout) | ⟨_, _, rfl⟩) | ⟨_, _, rfl⟩
  · cases hwallet : globals.depositWallet with
    | none => simp [hwallet] at hdeposit
    | some wallet =>
      simp only [hwallet, Option.elim, walletObjects, List.mem_cons, List.not_mem_nil] at hdeposit
      rcases hdeposit with rfl | rfl | rfl | hnone
      all_goals simp_all
  · cases hwallet : globals.payoutWallet with
    | none => simp [hwallet] at hpayout
    | some wallet =>
      simp only [hwallet, Option.elim, walletObjects, List.mem_cons, List.not_mem_nil] at hpayout
      rcases hpayout with rfl | rfl | rfl | hnone
      all_goals simp_all
  · simp
  · simp

theorem wallet_owned {wallet : Wallet} (h : wallet ∈ wallets globals) :
    walletObjects wallet ⊆ owned globals := by
  intro object hobject
  simp only [wallets, List.mem_append, Option.mem_toList] at h
  simp only [owned, List.mem_append]
  rcases h with h | h
  · simp_all
  · simp_all

theorem guarded {kept : List Object} {count : Nat} (howned : owned globals ⊆ kept) :
    Guarded @Sound kept count globals := by
  intro β m c hm hplain
  constructor
  · apply hplain.sound hm (by decide)
    · exact fun object hobject => ⟨owned_kinds object hobject, fun _ => howned hobject⟩
    · exact fun wallet hwallet => howned (wallet_owned hwallet (by simp [walletObjects]))
  · intro _ output houtput
    exact hm.live _ (howned (by simp [owned, houtput]))

/-- New handles are none of the others. -/
theorem Holding.acquired {new : List Object} (hm : Keeping (new ++ (owned globals ++ rest)) 0 m)
    (hapart : ∀ object ∈ rest, object ∉ owned globals)
    (hnew : ∀ object ∈ new, object ∉ owned globals ++ rest)
    (hsub : owned last ⊆ new ++ owned globals) : Holding rest last m where
  keeping := by
    refine hm.mono (List.append_subset.mpr ⟨?_, ?_⟩)
    · rw [← List.append_assoc]
      exact List.subset_append_of_subset_left _ hsub
    · rw [← List.append_assoc]
      exact List.subset_append_right _ _
  apart object hobject hlast := by
    rcases List.mem_append.mp (hsub hlast) with hfirst | howned
    · exact hnew object hfirst (List.mem_append_right _ hobject)
    · exact hapart object hobject howned

/-- Some of the handles are kept no longer. -/
theorem Holding.dropped (hm : Keeping (owned globals ++ rest) 0 m)
    (hapart : ∀ object ∈ rest, object ∉ owned globals) (hsub : owned last ⊆ owned globals) :
    Holding rest last m := by
  have hnone : Keeping ([] ++ (owned globals ++ rest)) 0 m := hm
  exact .acquired hnone hapart (List.forall_mem_nil _) hsub

/-- What an ECALL of the contract leaves: the handles are live, and neither the state machine
nor the stash has changed. -/
structure Leaves (rest : List Object) (globals last : Globals) (m : Memory) : Prop where
  holding : Holding rest last m
  state : last.state = globals.state
  stash : last.stash = globals.stash

end Holding

section Wallets
variable {rest : List Object} {globals : Globals} {m : Memory}

theorem release_sound {β : Type} (m : Memory) (c : Call Callback β)
    (h : Handles.Sound lasting (owned globals) (wallets globals) m c) (hinternal : c.Internal) :
    Sound globals m c := by
  refine ⟨h, fun hreads => ?_⟩
  cases c with
  | callback => exact absurd hinternal id
  | _ => exact absurd hreads id

/-- The globals with both wallets replaced. -/
def setWallets (globals : Globals) (depositWallet payoutWallet : Option Wallet) : Globals :=
  { globals with depositWallet := depositWallet, payoutWallet := payoutWallet }

theorem owned_setWallets {depositWallet payoutWallet : Option Wallet} {more : List Object}
    (hdeposit : depositWallet.elim [] walletObjects ⊆ more)
    (hpayout : payoutWallet.elim [] walletObjects ⊆ more) (howned : owned globals ⊆ more) :
    owned (setWallets globals depositWallet payoutWallet) ⊆ more := by
  simp only [owned, setWallets, List.append_subset] at howned ⊢
  exact ⟨⟨⟨hdeposit, hpayout⟩, howned.1.2⟩, howned.2⟩

theorem payoutWallet_owned : globals.payoutWallet.elim [] walletObjects ⊆ owned globals := by
  intro object hobject
  simp only [owned, List.mem_append]
  tauto

theorem dropWallets_spec {depositWallet payoutWallet : Wallet} {kept : List Object}
    (hm : Keeping (walletObjects payoutWallet ++ (walletObjects depositWallet ++ kept)) 0 m)
    (hdeposit : ∀ object ∈ walletObjects depositWallet, object ∉ kept)
    (hpayout : ∀ object ∈ walletObjects payoutWallet,
      object ∉ walletObjects depositWallet ++ kept) :
    (handles @Sound).wp (fun _ last m' => last = setWallets globals none none ∧ Keeping kept 0 m')
      (dropWallets depositWallet payoutWallet)
      (setWallets globals (some depositWallet) (some payoutWallet)) m := by
  have hwallets : wallets (setWallets globals (some depositWallet) (some payoutWallet)) =
      [depositWallet, payoutWallet] := rfl
  unfold dropWallets
  have hfirst : Keeping (walletObjects depositWallet ++ (walletObjects payoutWallet ++ kept)) 0 m := by
    refine hm.mono ?_
    intro object hobject
    simp only [List.mem_append] at hobject ⊢
    tauto
  refine bind_spec (zcashReleaseWallet_spec release_sound hfirst ?_ ?_) ?_
  · intro object hobject hkept
    rcases List.mem_append.mp hkept with hother | hkept
    · exact hpayout object hother (List.mem_append_left _ hobject)
    · exact hdeposit object hobject hkept
  · rw [hwallets]
    simp [walletObjects]
  intro _ m1 _ hm1
  refine bind_spec (zcashReleaseWallet_spec release_sound hm1 ?_ ?_) ?_
  · exact fun object hobject hkept => hpayout object hobject (List.mem_append_right _ hkept)
  · rw [hwallets]
    intro other hother object hobject hshared
    rcases List.mem_pair.mp hother with rfl | rfl
    · exact absurd (List.mem_append_left _ hshared) (hpayout object hobject)
    · exact List.mem_cons_self
  intro _ m2 _ hm2
  exact ⟨rfl, hm2⟩

theorem ecallInitializeImpl_spec (context : Pointer) (h : Holding rest globals m) :
    (handles @Sound).wp (fun _ last m' => Leaves rest globals last m')
      (ecallInitializeImpl context) globals m := by
  have hguarded : ∀ more, owned globals ++ rest ⊆ more → Guarded @Sound more 0 globals :=
    fun more hsub => guarded ((List.append_subset.mp hsub).1)
  unfold ecallInitializeImpl
  apply create_spec hguarded h.keeping
  intro depositWallet m1 hdeposit
  apply modify_spec
  cases depositWallet with
  | none =>
    have hsub : owned (setWallets globals none globals.payoutWallet) ⊆ owned globals :=
      owned_setWallets (List.nil_subset _) payoutWallet_owned (List.Subset.refl _)
    exact ⟨.dropped hdeposit.keeping h.apart hsub, rfl, rfl⟩
  | some depositWallet =>
    have hguarded1 : ∀ more, walletObjects depositWallet ++ (owned globals ++ rest) ⊆ more →
        Guarded @Sound more 0 (setWallets globals (some depositWallet) globals.payoutWallet) := by
      intro more hsub
      simp only [List.append_subset] at hsub
      exact guarded (owned_setWallets hsub.1 (List.Subset.trans payoutWallet_owned hsub.2.1) hsub.2.1)
    apply create_spec hguarded1 hdeposit.keeping
    intro payoutWallet m2 hpayout
    apply modify_spec
    cases payoutWallet with
    | none =>
      refine bind_spec (zcashReleaseWallet_spec release_sound hpayout.keeping hdeposit.outside ?_) ?_
      · intro other hother object _ _
        obtain rfl : other = depositWallet := List.mem_singleton.mp hother
        exact List.mem_cons_self
      intro _ m3 _ hm3
      have hsub : owned (setWallets globals none none) ⊆ owned globals :=
        owned_setWallets (List.nil_subset _) (List.nil_subset _) (List.Subset.refl _)
      exact ⟨.dropped hm3 h.apart hsub, rfl, rfl⟩
    | some payoutWallet =>
      have hm2 := hpayout.keeping
      have hdropped : ∀ m, Keeping (owned globals ++ rest) 0 m →
          Leaves rest globals (setWallets globals none none) m := by
        intro m hm
        have hsub : owned (setWallets globals none none) ⊆ owned globals :=
          owned_setWallets (List.nil_subset _) (List.nil_subset _) (List.Subset.refl _)
        exact ⟨.dropped hm h.apart hsub, rfl, rfl⟩
      have hguarded2 : Guarded @Sound
          (walletObjects payoutWallet ++ (walletObjects depositWallet ++ (owned globals ++ rest))) 0
          (setWallets globals (some depositWallet) (some payoutWallet)) := by
        apply guarded
        apply owned_setWallets
        · exact List.subset_append_of_subset_right _ (List.subset_append_left _ _)
        · exact List.subset_append_left _ _
        · exact List.subset_append_of_subset_right _ (List.subset_append_of_subset_right _
            (List.subset_append_left _ _))
      have haddress : (.address, depositWallet.address) ∈ walletObjects payoutWallet ++
          (walletObjects depositWallet ++ (owned globals ++ rest)) := by
        simp [walletObjects]
      refine bind_spec (zcashExport_spec hguarded2 hm2 haddress (List.forall_mem_nil _)) ?_
      intro exported m3 hbuffer hm3
      cases exported with
      | error ret =>
        rw [Contract.wp_bind]
        refine Contract.wp_mono ?_ (dropWallets_spec hm3 hdeposit.outside hpayout.outside)
        rintro _ _ m4 ⟨rfl, hm4⟩
        exact hdropped m4 hm4
      | ok depositAddress =>
        apply step_spec hguarded2 hm3
        · trivial
        · exact List.forall_mem_nil _
        intro ret m4 _ hm4
        apply step_spec hguarded2 hm4
        · trivial
        · exact List.forall_mem_singleton.mpr hbuffer
        intro _ m5 _ hm5
        split
        · rw [Contract.wp_bind]
          refine Contract.wp_mono ?_ (dropWallets_spec hm5 hdeposit.outside hpayout.outside)
          rintro _ _ m6 ⟨rfl, hm6⟩
          exact hdropped m6 hm6
        · have hsub : owned (setWallets globals (some depositWallet) (some payoutWallet)) ⊆
              (walletObjects payoutWallet ++ walletObjects depositWallet) ++ owned globals := by
            apply owned_setWallets
            · exact List.subset_append_of_subset_left _ (List.subset_append_right _ _)
            · exact List.subset_append_of_subset_left _ (List.subset_append_left _ _)
            · exact List.subset_append_right _ _
          rw [← List.append_assoc] at hm5
          refine ⟨.acquired hm5 h.apart ?_ hsub, rfl, rfl⟩
          intro object hobject
          rcases List.mem_append.mp hobject with hsecond | hfirst
          · exact fun hkept => hpayout.outside object hsecond (List.mem_append_right _ hkept)
          · exact hdeposit.outside object hfirst

end Wallets

section Advice
variable {rest : List Object} {globals : Globals} {m : Memory}

/-- The globals with the advice replaced. -/
def setAdvice (globals : Globals) (depositAdvice : Option Pointer) : Globals :=
  { globals with depositAdvice := depositAdvice }

theorem owned_setAdvice_none : owned (setAdvice globals none) ⊆ owned globals := by
  intro object hobject
  simp only [owned, setAdvice, Option.toList, List.map_nil, List.append_nil, List.mem_append]
    at hobject ⊢
  tauto

theorem owned_setAdvice (advice : Pointer) :
    owned (setAdvice globals (some advice)) ⊆ (.advice, advice) :: owned (setAdvice globals none) := by
  intro object hobject
  simp only [owned, setAdvice, Option.toList, List.map_cons, List.map_nil, List.mem_append,
    List.mem_cons, List.not_mem_nil] at hobject ⊢
  tauto

/-- Only the advice is given back. -/
theorem releaseAdvice_spec {advice : Pointer} {kept : List Object} {count : Nat}
    (hm : Keeping ((.advice, advice) :: kept) count m)
    (howned : owned (setAdvice globals none) ⊆ kept) (hnew : (.advice, advice) ∉ kept) :
    (handles @Sound).wp
      (fun _ last m' => last = setAdvice globals none ∧ Keeping kept count m')
      (releaseAdvice advice) (setAdvice globals (some advice)) m := by
  have hguarded : Guarded @Sound ((.advice, advice) :: kept) count
      (setAdvice globals (some advice)) := by
    apply guarded
    exact List.Subset.trans (owned_setAdvice advice) (List.cons_subset_cons _ howned)
  unfold releaseAdvice
  apply call_spec (hm.mono (List.subset_cons_self _ _))
  · exact hguarded m _ hm List.mem_cons_self
  · exact List.forall_mem_singleton.mpr hnew
  · rfl
  intro _ m1 _ hm1
  exact ⟨rfl, hm1⟩

/-- What a deposit leaves: without an error the advice is there. -/
def Deposited (rest : List Object) (globals : Globals) (ret : Int32) (last : Globals) (m : Memory) :
    Prop := Leaves rest globals last m ∧ (ret = 0 → last.depositAdvice.isSome)

theorem deposited_released {ret : Int32} {last : Globals} (hret : ret ≠ 0)
    (hapart : ∀ object ∈ rest, object ∉ owned globals)
    (h : last = setAdvice globals none ∧ Keeping (owned globals ++ rest) 0 m) :
    Deposited rest globals ret last m := by
  obtain ⟨rfl, hm⟩ := h
  exact ⟨⟨.dropped hm hapart owned_setAdvice_none, rfl, rfl⟩, fun hzero => absurd hzero hret⟩

section Deposit
variable {advice : Pointer} (hapart : ∀ object ∈ rest, object ∉ owned globals)
variable (hnew : (.advice, advice) ∉ owned globals ++ rest)
include hapart hnew

theorem releaseAdvice_deposited {ret : Int32} (hret : ret ≠ 0)
    (hm : Keeping ((.advice, advice) :: (owned globals ++ rest)) 0 m) :
    (handles @Sound).wp (Deposited rest globals)
      (releaseAdvice advice >>= fun _ => pure ret) (setAdvice globals (some advice)) m := by
  have hsub : owned (setAdvice globals none) ⊆ owned globals ++ rest :=
    List.subset_append_of_subset_left _ owned_setAdvice_none
  rw [Contract.wp_bind]
  refine Contract.wp_mono ?_ (releaseAdvice_spec hm hsub hnew)
  exact fun _ last m1 h => deposited_released hret hapart h

theorem sendDeposit_spec (depositAmount : Nat) (depositTransaction input : Bytes)
    {payoutAddress rawAdvice : Buffer}
    (hm : Keeping ((.advice, advice) :: (owned globals ++ rest)) 0 m)
    (hpayout : (.heap, payoutAddress.address) ∉ (.advice, advice) :: (owned globals ++ rest))
    (hraw : (.heap, rawAdvice.address) ∉ (.advice, advice) :: (owned globals ++ rest)) :
    (handles @Sound).wp (Deposited rest globals)
      (sendDeposit depositAmount depositTransaction input payoutAddress rawAdvice advice)
      (setAdvice globals (some advice)) m := by
  have hsub : owned (setAdvice globals (some advice)) ⊆
      (.advice, advice) :: (owned globals ++ rest) := by
    apply List.Subset.trans (owned_setAdvice advice)
    exact List.cons_subset_cons _ (List.subset_append_of_subset_left _ owned_setAdvice_none)
  have hguarded : Guarded @Sound ((.advice, advice) :: (owned globals ++ rest)) 0
      (setAdvice globals (some advice)) := guarded hsub
  unfold sendDeposit
  apply step_spec hguarded hm
  · trivial
  · exact List.forall_mem_nil _
  intro msg m1 hmsg hm1
  cases msg with
  | none =>
    apply step_spec hguarded hm1
    · trivial
    · exact List.forall_mem_singleton.mpr hpayout
    intro _ m2 _ hm2
    apply step_spec hguarded hm2
    · trivial
    · exact List.forall_mem_singleton.mpr hraw
    intro _ m3 _ hm3
    exact releaseAdvice_deposited hapart hnew (by decide) hm3
  | some msg =>
    apply get_spec
    apply deref_spec hguarded hm1
    intro operator _
    apply step_spec hguarded hm1
    · trivial
    · exact List.forall_mem_nil _
    intro ret m2 _ hm2
    apply step_spec hguarded hm2
    · trivial
    · exact List.forall_mem_singleton.mpr (hmsg _ (List.mem_singleton.mpr rfl))
    intro _ m3 _ hm3
    apply step_spec hguarded hm3
    · trivial
    · exact List.forall_mem_singleton.mpr hpayout
    intro _ m4 _ hm4
    apply step_spec hguarded hm4
    · trivial
    · exact List.forall_mem_singleton.mpr hraw
    intro _ m5 _ hm5
    split
    · rename_i hret
      exact releaseAdvice_deposited hapart hnew hret hm5
    · have hnew' : ∀ object ∈ [((.advice, advice) : Object)], object ∉ owned globals ++ rest :=
        List.forall_mem_singleton.mpr hnew
      have hholds : owned (setAdvice globals (some advice)) ⊆ [(.advice, advice)] ++ owned globals :=
        List.Subset.trans (owned_setAdvice advice) (List.cons_subset_cons _ owned_setAdvice_none)
      exact ⟨⟨.acquired hm5 hapart hnew' hholds, rfl, rfl⟩, fun _ => rfl⟩

end Deposit

theorem walletKey_kept {kept : List Object} {wallet : Wallet} (hwallet : wallet ∈ wallets globals)
    (howned : owned globals ⊆ kept) : (.key, wallet.key) ∈ kept :=
  howned (wallet_owned hwallet (by simp [walletObjects]))

theorem walletAddress_kept {kept : List Object} {wallet : Wallet}
    (hwallet : wallet ∈ wallets globals) (howned : owned globals ⊆ kept) :
    (.address, wallet.address) ∈ kept :=
  howned (wallet_owned hwallet (by simp [walletObjects]))

theorem ecallDepositAndInputImpl_spec (build : Build) (depositTransaction input : Bytes)
    (h : Holding rest globals m) :
    (handles @Sound).wp (Deposited rest globals)
      (ecallDepositAndInputImpl build depositTransaction input) globals m := by
  have howned : owned globals ⊆ owned globals ++ rest := List.subset_append_left _ _
  have hguarded : Guarded @Sound (owned globals ++ rest) 0 globals := guarded howned
  have hfailed : ∀ {ret : Int32} {m : Memory}, ret ≠ 0 → Keeping (owned globals ++ rest) 0 m →
      Deposited rest globals ret globals m :=
    fun hret hm => ⟨⟨⟨hm, h.apart⟩, rfl, rfl⟩, fun hzero => absurd hzero hret⟩
  unfold ecallDepositAndInputImpl
  apply step_spec hguarded h.keeping
  · trivial
  · exact List.forall_mem_nil _
  intro transaction m1 htransaction hm1
  cases transaction with
  | none => exact hfailed (by decide) hm1
  | some transaction =>
    apply get_spec
    apply deref_spec hguarded hm1
    intro depositWallet hdeposit
    have hkey : (.key, depositWallet.key) ∈ owned globals ++ rest :=
      walletKey_kept (by simp [wallets, hdeposit]) howned
    apply step_spec hguarded hm1
    · exact hkey
    · exact List.forall_mem_nil _
    intro depositAmount m2 _ hm2
    apply step_spec hguarded hm2
    · trivial
    · exact List.forall_mem_singleton.mpr (htransaction _ (List.mem_singleton.mpr rfl))
    intro _ m3 _ hm3
    split
    · exact hfailed (by decide) hm3
    · apply get_spec
      apply deref_spec hguarded hm3
      intro payoutWallet hpayout
      have haddress : (.address, payoutWallet.address) ∈ owned globals ++ rest :=
        walletAddress_kept (by simp [wallets, hpayout]) howned
      refine bind_spec (zcashExport_spec hguarded hm3 haddress (List.forall_mem_nil _)) ?_
      intro exported m4 hexported hm4
      cases exported with
      | error ret => exact hfailed hexported hm4
      | ok payoutAddress =>
        apply acquire_spec hguarded hm4
        · exact hkey
        · exact List.forall_mem_nil _
        intro advice m5 hadvice hm5
        apply modify_spec
        cases advice with
        | none =>
          have hguarded' : Guarded @Sound (owned globals ++ rest) 0 (setAdvice globals none) :=
            guarded (List.Subset.trans owned_setAdvice_none howned)
          apply step_spec hguarded' hm5
          · trivial
          · exact List.forall_mem_singleton.mpr hexported
          intro _ m6 _ hm6
          exact deposited_released (by decide) h.apart ⟨rfl, hm6⟩
        | some advice =>
          have hnew : (.advice, advice) ∉ owned globals ++ rest :=
            hadvice _ (List.mem_singleton.mpr rfl)
          have hsub : owned (setAdvice globals (some advice)) ⊆
              (.advice, advice) :: (owned globals ++ rest) := by
            apply List.Subset.trans (owned_setAdvice advice)
            exact List.cons_subset_cons _ (List.Subset.trans owned_setAdvice_none howned)
          have hguarded' : Guarded @Sound ((.advice, advice) :: (owned globals ++ rest)) 0
              (setAdvice globals (some advice)) := guarded hsub
          have hpayout : (.heap, payoutAddress.address) ∉
              (.advice, advice) :: (owned globals ++ rest) :=
            List.not_mem_cons_of_ne_of_not_mem (by simp) hexported
          refine bind_spec (zcashExport_spec hguarded' hm5 List.mem_cons_self
            (List.forall_mem_nil _)) ?_
          intro rawAdvice m6 hraw hm6
          cases rawAdvice with
          | error ret =>
            apply step_spec hguarded' hm6
            · trivial
            · exact List.forall_mem_singleton.mpr hpayout
            intro _ m7 _ hm7
            exact releaseAdvice_deposited h.apart hnew hraw hm7
          | ok rawAdvice =>
            exact sendDeposit_spec h.apart hnew _ _ _ hm6 hpayout hraw

end Advice

section Output
variable {rest : List Object} {globals : Globals} {m : Memory}

/-- The globals with the output replaced. -/
def setOutput (globals : Globals) (functionalityOutput : Option Buffer) : Globals :=
  { globals with functionalityOutput := functionalityOutput }

theorem owned_setOutput (output : Buffer) :
    owned (setOutput globals (some output)) ⊆ (.heap, output.address) :: owned globals := by
  intro object hobject
  simp only [owned, setOutput, Option.toList, List.map_cons, List.map_nil, List.mem_append,
    List.mem_cons, List.not_mem_nil] at hobject ⊢
  tauto

theorem owned_setOutput_none : owned (setOutput globals none) ⊆ owned globals := by
  intro object hobject
  simp only [owned, setOutput, Option.toList, List.map_nil, List.append_nil, List.mem_append]
    at hobject ⊢
  tauto

/-- What the output of the deposits leaves: the advice has not changed. -/
def GotDeposits (rest : List Object) (globals : Globals) (last : Globals) (m : Memory) : Prop :=
  Leaves rest globals last m ∧ last.depositAdvice = globals.depositAdvice

/-- By induction on the indices. -/
theorem outputDeposits_spec {kept : List Object} (hguarded : Guarded @Sound kept 0 globals)
    (hm : Keeping kept 0 m) (build : Build) (context : Pointer) (msg : ReceivedMessage)
    (indices : List Nat) :
    (handles @Sound).wp (Steady kept 0 globals fun _ => True)
      (outputDeposits build context msg indices) globals m := by
  induction indices generalizing m with
  | nil => exact ⟨rfl, hm, trivial⟩
  | cons i indices ih =>
    unfold outputDeposits
    apply step_spec hguarded hm
    · trivial
    · exact List.forall_mem_nil _
    intro ret m1 _ hm1
    split
    · exact ⟨rfl, hm1, trivial⟩
    · exact ih hm1

section Stored
variable {output : Buffer} (hapart : ∀ object ∈ rest, object ∉ owned globals)
variable (hnew : (.heap, output.address) ∉ owned globals ++ rest)
variable (hm : Keeping ((.heap, output.address) :: (owned globals ++ rest)) 0 m)
include hapart hnew hm

theorem dropOutput_spec :
    (handles @Sound).wp (fun _ last m' => GotDeposits rest globals last m') (dropOutput output)
      (setOutput globals (some output)) m := by
  have hsub : owned (setOutput globals (some output)) ⊆
      (.heap, output.address) :: (owned globals ++ rest) :=
    List.Subset.trans (owned_setOutput output)
      (List.cons_subset_cons _ (List.subset_append_left _ _))
  unfold dropOutput
  apply call_spec (hm.mono (List.subset_cons_self _ _))
  · exact guarded hsub m _ hm trivial
  · exact List.forall_mem_singleton.mpr hnew
  · rfl
  intro _ m1 _ hm1
  change GotDeposits rest globals (setOutput globals none) m1
  exact ⟨⟨.dropped hm1 hapart owned_setOutput_none, rfl, rfl⟩, rfl⟩

theorem outputAllDeposits_spec (build : Build) (context : Pointer) {msg : ReceivedMessage}
    (hmsg : (.heap, msg.address) ∉ (.heap, output.address) :: (owned globals ++ rest)) :
    (handles @Sound).wp (fun _ last m' => GotDeposits rest globals last m')
      (outputAllDeposits build context msg output) (setOutput globals (some output)) m := by
  have hsub : owned (setOutput globals (some output)) ⊆
      (.heap, output.address) :: (owned globals ++ rest) :=
    List.Subset.trans (owned_setOutput output)
      (List.cons_subset_cons _ (List.subset_append_left _ _))
  have hguarded : Guarded @Sound ((.heap, output.address) :: (owned globals ++ rest)) 0
      (setOutput globals (some output)) := guarded hsub
  unfold outputAllDeposits
  refine bind_spec (outputDeposits_spec hguarded hm build context msg _) ?_
  intro error m1 _ hm1
  cases error with
  | some ret =>
    apply step_spec hguarded hm1
    · trivial
    · exact List.forall_mem_singleton.mpr hmsg
    intro _ m2 _ hm2
    rw [Contract.wp_bind]
    refine Contract.wp_mono ?_ (dropOutput_spec hapart hnew hm2)
    exact fun _ _ _ hdropped => hdropped
  | none =>
    apply step_spec hguarded hm1
    · trivial
    · exact List.forall_mem_nil _
    intro ret m2 _ hm2
    apply step_spec hguarded hm2
    · trivial
    · exact List.forall_mem_singleton.mpr hmsg
    intro _ m3 _ hm3
    split
    · rw [Contract.wp_bind]
      refine Contract.wp_mono ?_ (dropOutput_spec hapart hnew hm3)
      exact fun _ _ _ hdropped => hdropped
    · have hnew' : ∀ object ∈ [((.heap, output.address) : Object)],
          object ∉ owned globals ++ rest := List.forall_mem_singleton.mpr hnew
      exact ⟨⟨.acquired hm3 hapart hnew' (owned_setOutput output), rfl, rfl⟩, rfl⟩

end Stored

theorem ecallGetDepositsImpl_spec (build : Build) (context : Pointer) (h : Holding rest globals m) :
    (handles @Sound).wp (fun _ last m' => GotDeposits rest globals last m')
      (ecallGetDepositsImpl build context) globals m := by
  have howned : owned globals ⊆ owned globals ++ rest := List.subset_append_left _ _
  have hguarded : Guarded @Sound (owned globals ++ rest) 0 globals := guarded howned
  unfold ecallGetDepositsImpl
  apply get_spec
  apply deref_spec hguarded h.keeping
  intro operator _
  apply acquire_spec hguarded h.keeping
  · trivial
  · exact List.forall_mem_nil _
  intro msg m1 hmsg hm1
  cases msg with
  | none => exact ⟨⟨⟨hm1, h.apart⟩, rfl, rfl⟩, rfl⟩
  | some msg =>
    have hmsg : (.heap, msg.address) ∉ owned globals ++ rest := hmsg _ (List.mem_singleton.mpr rfl)
    dsimp only
    split
    · apply step_spec hguarded (hm1.mono (List.subset_cons_self _ _))
      · trivial
      · exact List.forall_mem_singleton.mpr hmsg
      intro _ m2 _ hm2
      exact ⟨⟨⟨hm2, h.apart⟩, rfl, rfl⟩, rfl⟩
    · generalize ClearContract.settlementSighash msg = sighash
      generalize ClearContract.settlementTxid msg = txid
      generalize ClearContract.outputLength msg = length
      generalize ClearContract.output build.numPlayers msg = contents
      apply modify_spec
      generalize hstored : ({ globals with
        settlementSighash := sighash
        settlementTxid := txid
        functionalityOutputLength := length } : Globals) = stored
      have hsame : owned stored = owned globals := by
        subst hstored
        simp only [owned]
      have hapart : ∀ object ∈ rest, object ∉ owned stored := hsame ▸ h.apart
      rw [← hsame] at hmsg hm1
      have hguarded1 : Guarded @Sound ((.heap, msg.address) :: (owned stored ++ rest)) 0 stored :=
        guarded (List.subset_cons_of_subset _ (List.subset_append_left _ _))
      have hgot : ∀ last m, GotDeposits rest stored last m → GotDeposits rest globals last m := by
        intro last m hgot
        obtain ⟨hleaves, hadvice⟩ := hgot
        subst hstored
        exact ⟨⟨hleaves.holding, hleaves.state, hleaves.stash⟩, hadvice⟩
      apply acquire_spec hguarded1 hm1
      · trivial
      · exact List.forall_mem_nil _
      intro address m2 haddress hm2
      cases address with
      | none =>
        have hguarded2 : Guarded @Sound (owned stored ++ rest) 0 (setOutput stored none) :=
          guarded (List.Subset.trans owned_setOutput_none (List.subset_append_left _ _))
        apply modify_spec
        apply step_spec hguarded2 (hm2.mono (List.subset_cons_self _ _))
        · trivial
        · exact List.forall_mem_singleton.mpr hmsg
        intro _ m3 _ hm3
        have hdropped : Holding rest (setOutput stored none) m3 :=
          .dropped hm3 hapart owned_setOutput_none
        exact hgot _ _ ⟨⟨hdropped, rfl, rfl⟩, rfl⟩
      | some address =>
        have haddress : (.heap, address) ∉ (.heap, msg.address) :: (owned stored ++ rest) :=
          haddress _ (List.mem_singleton.mpr rfl)
        obtain ⟨hother, hnew⟩ := not_or.mp (mt List.mem_cons.mpr haddress)
        have hkept : Keeping ((.heap, address) :: (owned stored ++ rest)) 0 m2 :=
          hm2.mono (List.cons_subset_cons _ (List.subset_cons_self _ _))
        have hmsgOther : (.heap, msg.address) ∉ (.heap, address) :: (owned stored ++ rest) :=
          List.not_mem_cons_of_ne_of_not_mem (Ne.symm hother) hmsg
        let output : Buffer := ⟨address, contents⟩
        have hnewOutput : (.heap, output.address) ∉ owned stored ++ rest := hnew
        apply modify_spec
        refine Contract.wp_mono ?_
          (outputAllDeposits_spec hapart hnewOutput hkept build context hmsgOther)
        exact fun _ => hgot

end Output

section Release
variable {rest : List Object} {globals : Globals} {m : Memory}

theorem advice_apart (advice : Pointer) : (.advice, advice) ∉ owned (setAdvice globals none) := by
  have hwallet : ∀ wallet : Option Wallet, (.advice, advice) ∉ wallet.elim [] walletObjects := by
    intro wallet
    cases wallet with
    | none => exact List.not_mem_nil
    | some wallet => simp [walletObjects]
  simp [owned, setAdvice, hwallet]

/-- The advice is consumed whether or not there is a signature. -/
theorem ecallConfirmDepositsImpl_spec (h : Holding rest globals m) :
    (handles @Sound).wp (fun _ last m' => Leaves rest globals last m') ecallConfirmDepositsImpl
      globals m := by
  have howned : owned globals ⊆ owned globals ++ rest := List.subset_append_left _ _
  have hguarded : Guarded @Sound (owned globals ++ rest) 0 globals := guarded howned
  unfold ecallConfirmDepositsImpl
  apply get_spec
  apply deref_spec hguarded h.keeping
  intro depositWallet hdeposit
  apply deref_spec hguarded h.keeping
  intro advice hadvice
  have hkey : (.key, depositWallet.key) ∈ owned globals ++ rest :=
    walletKey_kept (by simp [wallets, hdeposit]) howned
  have hlive : (.advice, advice) ∈ owned globals := by simp [owned, hadvice]
  apply acquire_spec hguarded h.keeping
  · exact ⟨hkey, howned hlive⟩
  · exact List.forall_mem_nil _
  intro signature m1 hsignature hm1
  have hself : globals = setAdvice globals (some advice) := by
    rw [← hadvice]
    rfl
  let new : List Object := signature.toList.map (.signature, ·)
  have hsub : owned (setAdvice globals none) ⊆
      new ++ (owned (setAdvice globals none) ++ rest) :=
    List.subset_append_of_subset_right _ (List.subset_append_left _ _)
  have hkept : Keeping ((.advice, advice) :: (new ++ (owned (setAdvice globals none) ++ rest))) 0 m1 := by
    refine hm1.mono (List.cons_subset.mpr ⟨List.mem_append_right _ (howned hlive), ?_⟩)
    refine List.append_subset.mpr ⟨List.subset_append_left _ _, ?_⟩
    refine List.subset_append_of_subset_right _ (List.append_subset.mpr ⟨?_, ?_⟩)
    · exact List.subset_append_of_subset_left _ owned_setAdvice_none
    · exact List.subset_append_right _ _
  have hnew : (.advice, advice) ∉ new ++ (owned (setAdvice globals none) ++ rest) := by
    simp only [List.mem_append, not_or]
    refine ⟨?_, advice_apart advice, fun hrest => h.apart _ hrest hlive⟩
    simp [new]
  rw [Contract.wp_bind]
  rw [hself]
  refine Contract.wp_mono ?_ (releaseAdvice_spec hkept hsub hnew)
  rintro _ last m2 ⟨rfl, hm2⟩
  have hguarded2 : ∀ more, owned (setAdvice globals none) ++ rest ⊆ more →
      Guarded @Sound more 0 (setAdvice globals none) :=
    fun more hmore => guarded ((List.append_subset.mp hmore).1)
  have hleaves : ∀ {m : Memory}, Keeping (owned (setAdvice globals none) ++ rest) 0 m →
      Leaves rest globals (setAdvice globals none) m := by
    intro m hm
    refine ⟨⟨hm, fun object hobject hlast => ?_⟩, rfl, rfl⟩
    exact h.apart object hobject (owned_setAdvice_none hlast)
  rw [← hself]
  cases signature with
  | none => exact hleaves hm2
  | some signature =>
    have hapart : (.signature, signature) ∉ owned (setAdvice globals none) ++ rest := by
      intro hkept
      have hother := hsignature _ (List.mem_singleton.mpr rfl)
      rcases List.mem_append.mp hkept with hown | hrest
      · exact hother (List.mem_append_left _ (owned_setAdvice_none hown))
      · exact hother (List.mem_append_right _ hrest)
    have hguarded3 : Guarded @Sound
        ((.signature, signature) :: (owned (setAdvice globals none) ++ rest)) 0
        (setAdvice globals none) := hguarded2 _ (List.subset_cons_self _ _)
    refine bind_spec (zcashExport_spec hguarded3 hm2 List.mem_cons_self (List.forall_mem_nil _)) ?_
    intro exported m3 hexported hm3
    apply call_spec (hm3.mono (List.subset_cons_self _ _))
    · exact hguarded3 m3 _ hm3 List.mem_cons_self
    · exact List.forall_mem_singleton.mpr hapart
    · rfl
    intro _ m4 _ hm4
    have hm4 : Keeping (owned (setAdvice globals none) ++ rest) 0 m4 := hm4
    have hguarded4 : Guarded @Sound (owned (setAdvice globals none) ++ rest) 0
        (setAdvice globals none) := hguarded2 _ (List.Subset.refl _)
    cases exported with
    | error ret => exact hleaves hm4
    | ok rawSignature =>
      have hraw : (.heap, rawSignature.address) ∉ owned (setAdvice globals none) ++ rest :=
        (not_or.mp (mt List.mem_cons.mpr hexported)).2
      apply step_spec hguarded4 hm4
      · trivial
      · exact List.forall_mem_nil _
      intro msg m5 hmsg hm5
      cases msg with
      | none =>
        apply step_spec hguarded4 hm5
        · trivial
        · exact List.forall_mem_singleton.mpr hraw
        intro _ m6 _ hm6
        exact hleaves hm6
      | some msg =>
        apply get_spec
        apply deref_spec hguarded4 hm5
        intro operator _
        apply step_spec hguarded4 hm5
        · trivial
        · exact List.forall_mem_nil _
        intro ret m6 _ hm6
        apply step_spec hguarded4 hm6
        · trivial
        · exact List.forall_mem_singleton.mpr (hmsg _ (List.mem_singleton.mpr rfl))
        intro _ m7 _ hm7
        apply step_spec hguarded4 hm7
        · trivial
        · exact List.forall_mem_singleton.mpr hraw
        intro _ m8 _ hm8
        exact hleaves hm8

variable {dep : Deployment} (h : Holding rest globals m) (context : Pointer) (blocks : Bytes)
include h

/-- Nothing is given back but the copy of the key. -/
theorem ecallSettleImpl_spec :
    (handles @Sound).wp (fun _ last m' => last = globals ∧ Holding rest globals m')
      (ecallSettleImpl dep context blocks) globals m := by
  have howned : owned globals ⊆ owned globals ++ rest := List.subset_append_left _ _
  have hguarded : Guarded @Sound (owned globals ++ rest) 0 globals := guarded howned
  unfold ecallSettleImpl
  apply get_spec
  apply deref_spec hguarded h.keeping
  intro depositWallet _
  refine bind_spec (chainVerifier_spec hguarded h.keeping _) ?_
  intro count m1 _ hm1
  split
  · exact ⟨rfl, hm1, h.apart⟩
  · apply deref_spec hguarded hm1
    intro payoutWallet hpayout
    have hkey : (.key, payoutWallet.key) ∈ owned globals ++ rest :=
      walletKey_kept (by simp [wallets, hpayout]) howned
    refine bind_spec (zcashExport_spec hguarded hm1 hkey (List.forall_mem_nil _)) ?_
    intro exported m2 hexported hm2
    cases exported with
    | error ret => exact ⟨rfl, hm2, h.apart⟩
    | ok payoutKey =>
      apply step_spec hguarded hm2
      · trivial
      · exact List.forall_mem_nil _
      intro _ m3 _ hm3
      apply step_spec hguarded hm3
      · trivial
      · exact List.forall_mem_singleton.mpr hexported
      intro _ m4 _ hm4
      exact ⟨rfl, hm4, h.apart⟩

theorem ecallRefundImpl_spec :
    (handles @Sound).wp (fun _ last m' => last = globals ∧ Holding rest globals m')
      (ecallRefundImpl dep context blocks) globals m := by
  have howned : owned globals ⊆ owned globals ++ rest := List.subset_append_left _ _
  have hguarded : Guarded @Sound (owned globals ++ rest) 0 globals := guarded howned
  unfold ecallRefundImpl
  split
  · exact ⟨rfl, h⟩
  · apply get_spec
    apply deref_spec hguarded h.keeping
    intro depositWallet hdeposit
    have hkey : (.key, depositWallet.key) ∈ owned globals ++ rest :=
      walletKey_kept (by simp [wallets, hdeposit]) howned
    refine bind_spec (zcashExport_spec hguarded h.keeping hkey (List.forall_mem_nil _)) ?_
    intro exported m1 hexported hm1
    cases exported with
    | error ret => exact ⟨rfl, hm1, h.apart⟩
    | ok depositKey =>
      apply step_spec hguarded hm1
      · trivial
      · exact List.forall_mem_nil _
      intro _ m2 _ hm2
      apply step_spec hguarded hm2
      · trivial
      · exact List.forall_mem_singleton.mpr hexported
      intro _ m3 _ hm3
      exact ⟨rfl, hm3, h.apart⟩

end Release

section Connect
variable {before globals : Globals} {stash : Stash} {channel : Option Pointer}

/-- A handshake leaves the channel, the quote and the object of the operator, or nothing. -/
def Attested (before : Globals) (operator : Option Operator) (last : Globals) (stash : Stash)
    (channel : Option Pointer) : Prop :=
  last = { before with stash := stash } ∧
    match operator with
    | none => channel = none
    | some operator => channel = some operator.channel.address ∧
        Clear (owned before) stash none operator.quote.address ∧
        Clear (owned before) stash none operator.struct

theorem guarded_of {base : List Object} (h : owned globals = base) :
    ∀ kept, base ⊆ kept → Guarded @Sound kept 0 globals :=
  fun _ hkept => guarded (h ▸ hkept)

theorem dropStashedQuote_step {α : Type} {base : List Object} {post : α → Globals → Memory → Prop}
    {f : PUnit → Code α} (hbase : owned globals = base) (hstash : globals.stash = stash)
    (h : Connects @Sound 0 base post (f ()) { globals with stash := {} } {} channel) :
    Connects @Sound 0 base post (dropStashedQuote >>= f) globals stash channel := by
  subst hstash
  have hguarded : ∀ kept, base ⊆ kept → Guarded @Sound kept 0 { globals with stash := {} } :=
    guarded_of hbase
  unfold dropStashedQuote
  rw [bind_assoc]
  apply get_step
  cases hquote : globals.stash.quote with
  | none =>
    apply forget_step hquote
    exact modify_step hguarded h
  | some quote =>
    dsimp only
    rw [bind_assoc]
    apply drop_step hquote
    exact modify_step hguarded h

theorem answerSynack_attested (tcrypto : Tcrypto) (quotingEnclave : TargetInfo) (ref : ChannelRef)
    (nonce : Digest) (ga : PublicKey) (gab : SharedKey) (msg2 : ReceivedMessage)
    (hmsg : Clear (owned globals) globals.stash (some ref.address) msg2.address) :
    Connects @Sound 0 (owned globals) (Ends @Sound 0 (owned globals) (Attested globals))
      (answerSynack tcrypto quotingEnclave ref nonce ga gab msg2) globals globals.stash
      (some ref.address) := by
  unfold answerSynack stashQuotes
  repeat' with_reducible first
    | apply digests_step (getSessionKey_within _ _ _)
    | apply digests_step (getReportData_within _ _ _)
    | apply malloc_step
    | apply quote_step
    | apply teardown_step
    | apply dropStashedQuote_step
    | apply free_step
    | apply modify_step
    | apply get_step
    | apply end_step
    | apply call_step
    | intro _
    | dsimp only
    | split
  all_goals first
    | rfl
    | assumption
    | exact True.intro
    | exact Clear.dropped ‹_›
    | exact Clear.unstashed ‹_›
    | exact guarded_of rfl _ ‹_›
    | exact ⟨rfl, rfl⟩
    | exact ⟨rfl, rfl, Clear.emptied ‹Clear _ _ _ _›, Clear.emptied ‹_›⟩

theorem mutualAttestation_attested (tcrypto : Tcrypto) (context : Pointer)
    (quotingEnclave : TargetInfo) (id : Nat) :
    Connects @Sound 0 (owned globals) (Ends @Sound 0 (owned globals) (Attested globals))
      (mutualAttestation tcrypto context quotingEnclave id) globals globals.stash none := by
  have hanswer : ∀ (ref : ChannelRef) (nonce : Digest) (ga : PublicKey) (gab : SharedKey)
      (msg2 : ReceivedMessage), Clear (owned globals) globals.stash (some ref.address) msg2.address →
      Connects @Sound 0 (owned globals) (Ends @Sound 0 (owned globals) (Attested globals))
        (answerSynack tcrypto quotingEnclave ref nonce ga gab msg2) globals globals.stash
        (some ref.address) := answerSynack_attested tcrypto quotingEnclave
  unfold mutualAttestation
  repeat' with_reducible first
    | apply create_step
    | apply malloc_step
    | apply receive_step
    | apply teardown_step
    | apply free_step
    | apply end_step
    | apply fault_step
    | apply call_step
    | intro _
    | dsimp only
    | split
  all_goals first
    | rfl
    | assumption
    | exact True.intro
    | exact Clear.dropped ‹_›
    | exact ⟨rfl, rfl⟩
    | exact hanswer _ _ _ _ _ ‹_›

/-- Nothing but messages is exchanged. -/
def Unmoved {α : Type} (globals : Globals) (stash : Stash) (channel : Option Pointer) (_ : α)
    (last : Globals) (stash' : Stash) (channel' : Option Pointer) : Prop :=
  last = globals ∧ stash' = stash ∧ channel' = channel

/-- By induction on the indices. -/
theorem printPlayersQuotes_unmoved {base : List Object} (numPlayers playerId : Nat)
    (msg : ReceivedMessage) (hmsg : Clear base stash channel msg.address) (indices : List Nat) :
    Connects @Sound 0 base (Ends @Sound 0 base (Unmoved globals stash channel))
      (printPlayersQuotes numPlayers playerId msg indices) globals stash channel := by
  induction indices with
  | nil => exact end_step ⟨rfl, rfl, rfl⟩
  | cons i rest ih =>
    unfold printPlayersQuotes
    split
    · exact ih
    · apply call_step
      · exact fun _ => True.intro
      · rfl
      intro ret
      split
      · apply free_step hmsg
        exact end_step ⟨rfl, rfl, rfl⟩
      · exact ih

theorem presentQuotes_unmoved {base : List Object} (numPlayers : Nat) (operator : Operator)
    (playerId : Nat) :
    Connects @Sound 0 base (Ends @Sound 0 base (Unmoved globals stash channel))
      (presentQuotes numPlayers operator playerId) globals stash channel := by
  unfold presentQuotes
  apply receive_step
  · exact end_step ⟨rfl, rfl, rfl⟩
  intro msg1 hmsg1
  dsimp only
  split
  · apply free_step hmsg1
    exact end_step ⟨rfl, rfl, rfl⟩
  apply bind_step (printPlayersQuotes_unmoved numPlayers playerId msg1 hmsg1 _)
  rintro error _ _ _ ⟨rfl, rfl, rfl⟩
  repeat' with_reducible first
    | apply malloc_step
    | apply receive_step
    | apply free_step
    | apply end_step
    | apply call_step
    | intro _
    | dsimp only
    | split
  all_goals first
    | rfl
    | assumption
    | exact True.intro
    | exact ⟨rfl, rfl, rfl⟩

/-- What a connection changes. -/
def Connected (before : Globals) (_ : Int32) (last : Globals) (stash : Stash)
    (_ : Option Pointer) : Prop :=
  ∃ operator, last = { before with operator := operator, stash := stash }

theorem ecallConnectToOperatorImpl_connected (numPlayers : Nat) (tcrypto : Tcrypto)
    (context : Pointer) (playerId : Nat) :
    Connects @Sound 0 (owned globals) (Ends @Sound 0 (owned globals) (Connected globals))
      (ecallConnectToOperatorImpl numPlayers tcrypto context playerId) globals globals.stash none := by
  unfold ecallConnectToOperatorImpl
  apply get_step
  split
  · exact end_step ⟨_, rfl⟩
  apply call_step
  · exact fun _ => True.intro
  · rfl
  rintro ⟨ret, quotingEnclave⟩
  dsimp only
  split
  · exact end_step ⟨_, rfl⟩
  apply bind_step (mutualAttestation_attested tcrypto context quotingEnclave playerId)
  rintro operator _ stash channel ⟨rfl, hattested⟩
  apply modify_step
  · exact guarded_of rfl
  cases operator with
  | none => exact end_step ⟨_, rfl⟩
  | some operator =>
    obtain ⟨rfl, hquote, hstruct⟩ := hattested
    apply bind_step (presentQuotes_unmoved numPlayers operator playerId)
    rintro ret' _ _ _ ⟨rfl, rfl, rfl⟩
    split
    · apply teardown_step rfl
      apply free_step hquote
      apply free_step hstruct
      apply modify_step
      · exact guarded_of rfl
      exact end_step ⟨_, rfl⟩
    · exact end_step ⟨_, rfl⟩

end Connect

section Runs
variable {dep : Deployment} {globals : Globals} {m : Memory}

/-- Between two ECALLs every handle is live, the stashed quote besides, and the advice is there
for the confirmation. -/
structure Inv (globals : Globals) (m : Memory) : Prop where
  holding : Holding (stashed globals.stash) globals m
  advice : globals.state = .deposited ∨ globals.state = .gotDeposits →
    globals.depositAdvice.isSome

theorem connect_inv (numPlayers : Nat) (tcrypto : Tcrypto) (context : Pointer) (playerId : Nat)
    (h : Inv globals m) :
    (handles @Sound).wp (fun _ last m' => Inv last m')
      (ecallConnectToOperatorImpl numPlayers tcrypto context playerId) globals m := by
  have hattempt : Attempt (owned globals) 0 globals.stash none m := by
    refine ⟨h.holding.keeping.mono ?_, h.holding.apart, List.forall_mem_nil _⟩
    refine List.append_subset.mpr ⟨List.nil_subset _, List.append_subset.mpr ⟨?_, ?_⟩⟩
    · exact List.subset_append_right _ _
    · exact List.subset_append_left _ _
  refine Contract.wp_mono ?_ (ecallConnectToOperatorImpl_connected numPlayers tcrypto context
    playerId (guarded_of rfl) m hattempt)
  rintro ret _ m' ⟨_, stash, channel, hm', operator, rfl⟩
  refine ⟨⟨hm'.keeping.mono ?_, hm'.quote⟩, h.advice⟩
  refine List.subset_append_of_subset_right _ (List.append_subset.mpr ⟨?_, ?_⟩)
  · exact List.subset_append_right _ _
  · exact List.subset_append_left _ _

theorem Inv.of_leaves {last : Globals} {state : State}
    (h : Leaves (stashed globals.stash) globals last m)
    (hadvice : state = .deposited ∨ state = .gotDeposits → last.depositAdvice.isSome) :
    Inv { last with state := state } m :=
  ⟨h.stash ▸ ⟨h.holding.keeping, h.holding.apart⟩, hadvice⟩

theorem initialize_inv (context : Pointer) (h : Inv globals m) :
    (handles @Sound).wp (fun _ last m' => Inv last m') (ecallInitialize context) globals m := by
  unfold ecallInitialize
  apply get_spec
  split
  · exact h
  · rename_i hstate
    rw [Contract.wp_bind]
    refine Contract.wp_mono ?_ (ecallInitializeImpl_spec context h.holding)
    intro ret last m' hleaves
    split
    · exact Inv.of_leaves hleaves (by simp)
    · have hkept : Inv { last with state := last.state } m' := by
        apply Inv.of_leaves hleaves
        rw [hleaves.state, not_not.mp hstate]
        simp
      exact hkept

theorem depositAndInput_inv (depositTransaction input : Bytes) (h : Inv globals m) :
    (handles @Sound).wp (fun _ last m' => Inv last m')
      (ecallDepositAndInput dep depositTransaction input) globals m := by
  unfold ecallDepositAndInput
  apply get_spec
  split
  · exact h
  · rw [Contract.wp_bind]
    refine Contract.wp_mono ?_ (ecallDepositAndInputImpl_spec dep.build depositTransaction input
      h.holding)
    intro ret last m' hdeposited
    apply Inv.of_leaves hdeposited.1
    intro hstate
    split at hstate
    · simp at hstate
    · exact hdeposited.2 (not_not.mp ‹_›)

theorem getDeposits_inv (context : Pointer) (h : Inv globals m) :
    (handles @Sound).wp (fun _ last m' => Inv last m') (ecallGetDeposits dep context) globals m := by
  unfold ecallGetDeposits
  apply get_spec
  split
  · exact h
  · rename_i hstate
    rw [Contract.wp_bind]
    refine Contract.wp_mono ?_ (ecallGetDepositsImpl_spec dep.build context h.holding)
    intro ret last m' hgot
    apply Inv.of_leaves hgot.1
    intro _
    rw [hgot.2]
    exact h.advice (.inl (not_not.mp hstate))

theorem confirmDeposits_inv (h : Inv globals m) :
    (handles @Sound).wp (fun _ last m' => Inv last m') ecallConfirmDeposits globals m := by
  unfold ecallConfirmDeposits
  apply get_spec
  split
  · exact h
  · rw [Contract.wp_bind]
    refine Contract.wp_mono ?_ (ecallConfirmDepositsImpl_spec h.holding)
    intro ret last m' hleaves
    apply Inv.of_leaves hleaves
    split
    · simp
    · simp

theorem settle_inv (context : Pointer) (blocks : Bytes) (h : Inv globals m) :
    (handles @Sound).wp (fun _ last m' => Inv last m') (ecallSettle dep context blocks) globals m := by
  unfold ecallSettle
  apply get_spec
  dsimp only
  split
  · exact h
  · rw [Contract.wp_bind]
    refine Contract.wp_mono ?_ (ecallSettleImpl_spec h.holding context blocks)
    rintro ret last m' ⟨rfl, hholding⟩
    split
    · exact Inv.of_leaves ⟨hholding, rfl, rfl⟩ (by simp)
    · exact ⟨hholding, h.advice⟩

theorem refund_inv (context : Pointer) (blocks : Bytes) (h : Inv globals m) :
    (handles @Sound).wp (fun _ last m' => Inv last m') (ecallRefund dep context blocks) globals m := by
  unfold ecallRefund
  apply get_spec
  split
  · exact h
  · rw [Contract.wp_bind]
    refine Contract.wp_mono ?_ (ecallRefundImpl_spec h.holding context blocks)
    rintro ret last m' ⟨rfl, hholding⟩
    split
    · exact Inv.of_leaves ⟨hholding, rfl, rfl⟩ (by simp)
    · exact ⟨hholding, h.advice⟩

theorem handle_inv (op : Ecall) (globals : Globals) (m : Memory) (h : Inv globals m) :
    (handles @Sound).wp (fun _ last m' => Inv last m') (handle dep op) globals m := by
  cases op with
  | ecallConnectToOperator context playerId => exact connect_inv _ _ context playerId h
  | ecallInitialize context => exact initialize_inv context h
  | ecallDepositAndInput depositTransaction input => exact depositAndInput_inv _ input h
  | ecallGetDeposits context => exact getDeposits_inv context h
  | ecallConfirmDeposits => exact confirmDeposits_inv h
  | ecallSettle context blocks => exact settle_inv context blocks h
  | ecallRefund context blocks => exact refund_inv context blocks h

theorem initial_inv : Inv initial {} :=
  ⟨⟨⟨List.forall_mem_nil _, rfl⟩, List.forall_mem_nil _⟩, by simp [initial]⟩

theorem Inv.kept (h : Inv globals m) : Kept globals m where
  live object hobject := h.holding.keeping.live object (List.mem_append_left _ hobject)
  advice hstate := by
    obtain ⟨advice, hadvice⟩ := Option.isSome_iff_exists.mp (h.advice hstate)
    refine ⟨advice, hadvice, h.holding.keeping.live _ (List.mem_append_left _ ?_)⟩
    simp [owned, hadvice]

variable {steps : List (Step (enclave dep))} {last : Globals}

theorem run_kept (run : Run (enclave dep) initial steps last)
    (hhonours : (handles @Sound).Honours {} (eventsOf steps)) :
    Kept last ((eventsOf steps).foldl (handles @Sound).observe {}) :=
  (run.honoured initial_inv hhonours handle_inv).kept

theorem trace_sound (trace : Trace (enclave dep) initial steps last)
    (hhonours : (handles @Sound).Honours {} (eventsOf steps))
    {before : List (Event (Call Callback))} {β : Type} {c : Call Callback β}
    (hevents : eventsOf steps = before ++ [.issued c]) :
    Sound last (before.foldl (handles @Sound).observe {}) c :=
  trace.honoured_waiting initial_inv hhonours handle_inv hevents

end Runs

end Auntie.Guarantees.PlayerHandles
