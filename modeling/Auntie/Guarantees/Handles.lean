import Auntie.Interaction.Contract
import Auntie.Source.Common.Payloads
import Auntie.Source.Common.Zcash

/-!
# Handles and what becomes of them

The objects an enclave takes from the C allocator and from the Rust library, and gives back to
them. An allocator never answers with an object that is live; what has been given back it may
answer with again. `Keeping` says that a list of handles is live: code that gives back only
what it has taken itself keeps every handle that was live before.
-/

namespace Auntie.Guarantees.Handles
open Auntie.Source Auntie.Interaction

section Objects
variable {Callback β : Type}

/-- Who an object belongs to. -/
inductive Owner where
  | heap
  | key
  | address
  | advice
  | transaction
  | partialTransaction
  | signature
  deriving DecidableEq

abbrev Object := Owner × Pointer

/-- The objects a call is handed. -/
def touched : Call Callback β → List Object
  | .free address => [(.heap, address)]
  | .channelTeardown channel => [(.heap, channel.address)]
  | .zcashReleaseKey key | .zcashDeriveAddress key | .zcashExportKeyImpl key
  | .zcashCreateAdvice key => [(.key, key)]
  | .zcashReleaseAddress address | .zcashExportAddressImpl address => [(.address, address)]
  | .zcashExportAdviceImpl advice | .zcashReleaseAdvice advice => [(.advice, advice)]
  | .zcashExportSignatureImpl signature | .zcashReleaseSignature signature =>
    [(.signature, signature)]
  | .zcashGetRawTransactionLength transaction | .zcashExportTransactionImpl transaction _
  | .zcashReleaseTransaction transaction => [(.transaction, transaction)]
  | .zcashReleasePartialTransaction transaction | .zcashHashTransaction transaction =>
    [(.partialTransaction, transaction)]
  | .zcashDepositedAmount transaction key => [(.transaction, transaction), (.key, key)]
  | .zcashSignTransaction key advice _ => [(.key, key), (.advice, advice)]
  | .zcashCreateTransaction inputs _ payoutAddresses advices _ _ =>
    inputs.map (.transaction, ·) ++ payoutAddresses.map (.address, ·) ++ advices.map (.advice, ·)
  | .zcashAuthorizeTransaction transaction signatures =>
    (.partialTransaction, transaction) :: signatures.map (.signature, ·)
  | _ => []

/-- The objects a call gives back. The authorization of a transaction takes the partial
transaction over, and copies the signatures. -/
def released : Call Callback β → List Object
  | .free address => [(.heap, address)]
  | .channelTeardown channel => [(.heap, channel.address)]
  | .zcashReleaseKey key => [(.key, key)]
  | .zcashReleaseAddress address => [(.address, address)]
  | .zcashReleaseAdvice advice => [(.advice, advice)]
  | .zcashReleaseSignature signature => [(.signature, signature)]
  | .zcashReleaseTransaction transaction => [(.transaction, transaction)]
  | .zcashReleasePartialTransaction transaction | .zcashAuthorizeTransaction transaction _ =>
    [(.partialTransaction, transaction)]
  | _ => []

/-- The objects a call answers with. -/
def acquired : Call Callback β → β → List Object
  | .malloc _, address => address.toList.map (.heap, ·)
  | .channelCreate _, address => address.toList.map (.heap, ·)
  | .auntieMsgReceive _, msg => msg.toList.map fun msg => (.heap, msg.address)
  | .ocallQuoteMe _, (_, callbacks) => (callbacks.filterMap QuoteCallback.stash).map (.heap, ·)
  | .zcashCreateKey, key => key.toList.map (.key, ·)
  | .zcashDeriveAddress _, address => address.toList.map (.address, ·)
  | .zcashImportAddress _, address => address.toList.map (.address, ·)
  | .zcashImportAdvice _, advice => advice.toList.map (.advice, ·)
  | .zcashCreateAdvice _, advice => advice.toList.map (.advice, ·)
  | .zcashImportTransaction _, transaction => transaction.toList.map (.transaction, ·)
  | .zcashImportSignature _, signature => signature.toList.map (.signature, ·)
  | .zcashSignTransaction _ _ _, signature => signature.toList.map (.signature, ·)
  | .zcashCreateTransaction _ _ _ _ _ _, transaction =>
    transaction.toList.map (.partialTransaction, ·)
  | .zcashAuthorizeTransaction _ _, transaction => transaction.toList.map (.transaction, ·)
  | _, _ => []

def authorizes : Call Callback β → Bool
  | .zcashAuthorizeTransaction _ _ => true
  | _ => false

/-- The live objects, and how many settlements have been handed over for authorization. -/
structure Memory where
  live : List Object := []
  authorized : Nat := 0

/-- A wallet is a structure, a key and an address. -/
def walletObjects (wallet : Wallet) : List Object :=
  [(.heap, wallet.struct), (.key, wallet.key), (.address, wallet.address)]

/-- What a call finds: an object of a lasting kind and an object that is owned are live, and so
is the structure of a wallet a part of which is handed over. -/
structure Sound (lasting : List Owner) (owned : List Object) (wallets : List Wallet) (m : Memory)
    (c : Call Callback β) : Prop where
  handed : ∀ object ∈ touched c, object.1 ∈ lasting ∨ object ∈ owned → object ∈ m.live
  structures : ∀ wallet ∈ wallets, ∀ object ∈ touched c, object ∈ walletObjects wallet →
    (.heap, wallet.struct) ∈ m.live

variable {σ : Type}

/-- What is live is not answered with. -/
def handles (sound : {β : Type} → σ → Memory → Call Callback β → Prop) :
    Contract (Call Callback) σ Memory where
  issued m c :=
    { live := m.live.filter fun object => object ∉ released c
      authorized := m.authorized + (authorizes c).toNat }
  answered m c answer := { m with live := acquired c answer ++ m.live }
  safe state m c := sound state m c
  assumes m c answer := ∀ object ∈ acquired c answer, object ∉ m.live

end Objects

section Keeping
variable {Callback σ α β : Type} {kept : List Object} {count : Nat} {m : Memory}

/-- The handles are live, and so many settlements have been authorized. -/
structure Keeping (kept : List Object) (count : Nat) (m : Memory) : Prop where
  live : ∀ object ∈ kept, object ∈ m.live
  authorized : m.authorized = count

/-- No handle is given back. -/
def Spares (kept : List Object) (c : Call Callback β) : Prop := ∀ object ∈ released c, object ∉ kept

/-- No handle is answered with. -/
def Outside (kept : List Object) (c : Call Callback β) (answer : β) : Prop :=
  ∀ object ∈ acquired c answer, object ∉ kept

/-- The objects of the Rust library a call is handed, transactions apart, are among the
handles. -/
def Plain (kept : List Object) : Call Callback β → Prop
  | .zcashCreateTransaction _ _ _ _ _ _ | .zcashAuthorizeTransaction _ _ => False
  | .zcashReleaseKey key | .zcashDeriveAddress key | .zcashExportKeyImpl key
  | .zcashCreateAdvice key | .zcashDepositedAmount _ key => (.key, key) ∈ kept
  | .zcashReleaseAddress address | .zcashExportAddressImpl address => (.address, address) ∈ kept
  | .zcashExportAdviceImpl advice | .zcashReleaseAdvice advice => (.advice, advice) ∈ kept
  | .zcashSignTransaction key advice _ => (.key, key) ∈ kept ∧ (.advice, advice) ∈ kept
  | .zcashExportSignatureImpl signature | .zcashReleaseSignature signature =>
    (.signature, signature) ∈ kept
  | .zcashReleasePartialTransaction transaction | .zcashHashTransaction transaction =>
    (.partialTransaction, transaction) ∈ kept
  | _ => True

theorem Plain.authorizes_eq {c : Call Callback β} (h : Plain kept c) : authorizes c = false := by
  cases c with
  | zcashAuthorizeTransaction => exact absurd h id
  | _ => rfl

theorem Plain.touched {c : Call Callback β} (h : Plain kept c) :
    ∀ object ∈ touched c, object.1 = .heap ∨ object.1 = .transaction ∨ object ∈ kept := by
  intro object hobject
  cases c with
  | zcashCreateTransaction => exact absurd h id
  | zcashAuthorizeTransaction => exact absurd h id
  | zcashDepositedAmount =>
    rcases List.mem_pair.mp hobject with rfl | rfl
    · exact .inr (.inl rfl)
    · exact .inr (.inr h)
  | zcashSignTransaction =>
    rcases List.mem_pair.mp hobject with rfl | rfl
    · exact .inr (.inr h.1)
    · exact .inr (.inr h.2)
  | _ => simp_all [Plain, Handles.touched]

/-- Nothing owned is a transaction, and the memory that is owned is among the handles. -/
theorem Plain.sound {c : Call Callback β} {lasting : List Owner} {owned : List Object}
    {wallets : List Wallet} (h : Plain kept c) (hm : Keeping kept count m)
    (hlasting : .heap ∉ lasting ∧ .transaction ∉ lasting)
    (howned : ∀ object ∈ owned, object.1 ≠ .transaction ∧ (object.1 = .heap → object ∈ kept))
    (hwallets : ∀ wallet ∈ wallets, (.heap, wallet.struct) ∈ kept) :
    Sound lasting owned wallets m c where
  handed object hobject hheld := by
    rcases h.touched object hobject with hheap | htransaction | hkept
    · rcases hheld with hkind | hown
      · exact absurd (hheap ▸ hkind) hlasting.1
      · exact hm.live object ((howned object hown).2 hheap)
    · rcases hheld with hkind | hown
      · exact absurd (htransaction ▸ hkind) hlasting.2
      · exact absurd htransaction (howned object hown).1
    · exact hm.live object hkept
  structures wallet hwallet _ _ _ := hm.live _ (hwallets wallet hwallet)

variable {sound : {β : Type} → σ → Memory → Call Callback β → Prop} {state : σ}
variable {post : α → σ → Memory → Prop}

theorem Keeping.mono {fewer : List Object} (h : Keeping kept count m) (hsub : fewer ⊆ kept) :
    Keeping fewer count m := ⟨fun object hobject => h.live object (hsub hobject), h.authorized⟩

theorem Keeping.issued {c : Call Callback β} (h : Keeping kept count m) (hspares : Spares kept c)
    (hcount : authorizes c = false) : Keeping kept count ((handles @sound).issued m c) := by
  constructor
  · intro object hobject
    refine List.mem_filter.mpr ⟨h.live object hobject, ?_⟩
    exact decide_eq_true fun hreleased => hspares object hreleased hobject
  · simpa [handles, hcount] using h.authorized

/-- A call that spares the handles: what it answers with is live too, and none of them. -/
theorem call_spec {c : Call Callback β} {f : β → Code Callback σ α} (hm : Keeping kept count m)
    (hsound : sound state m c) (hspares : Spares kept c) (hcount : authorizes c = false)
    (hnext : ∀ answer m', Outside kept c answer → Keeping (acquired c answer ++ kept) count m' →
      (handles @sound).wp post (f answer) state m') :
    (handles @sound).wp post (issue c >>= f) state m := by
  rw [Contract.wp_bind]
  refine ⟨hsound, fun answer hfresh => ?_⟩
  have hissued : Keeping kept count ((handles @sound).issued m c) := hm.issued hspares hcount
  apply hnext
  · exact fun object hobject hkept => hfresh object hobject (hissued.live object hkept)
  · constructor
    · intro object hobject
      rcases List.mem_append.mp hobject with hanswer | hkept
      · exact List.mem_append_left _ hanswer
      · exact List.mem_append_right _ (hissued.live object hkept)
    · exact hissued.authorized

/-- The state is as it was, the handles are live, and the value is as described. -/
def Steady (kept : List Object) (count : Nat) (state : σ) (value : α → Prop) (result : α) (last : σ)
    (m : Memory) : Prop := last = state ∧ Keeping kept count m ∧ value result

theorem bind_spec {p : Code Callback σ β} {f : β → Code Callback σ α} {value : β → Prop}
    (hp : (handles @sound).wp (Steady kept count state value) p state m)
    (hnext : ∀ result m', value result → Keeping kept count m' →
      (handles @sound).wp post (f result) state m') :
    (handles @sound).wp post (p >>= f) state m := by
  rw [Contract.wp_bind]
  refine Contract.wp_mono ?_ hp
  rintro result last m' ⟨rfl, hm, hvalue⟩
  exact hnext result m' hvalue hm

theorem get_spec {f : σ → Code Callback σ α} (hnext : (handles @sound).wp post (f state) state m) :
    (handles @sound).wp post ((MonadState.get : Code Callback σ σ) >>= f) state m := hnext

theorem modify_spec {g : σ → σ} {f : PUnit → Code Callback σ α}
    (hnext : (handles @sound).wp post (f ()) (g state) m) :
    (handles @sound).wp post (modify g >>= f) state m := hnext

/-- Where the handles are live every plain call is sound. -/
def Guarded (sound : {β : Type} → σ → Memory → Call Callback β → Prop) (kept : List Object)
    (count : Nat) (state : σ) : Prop :=
  ∀ {β : Type} (m : Memory) (c : Call Callback β), Keeping kept count m → Plain kept c →
    sound state m c

variable (hguarded : Guarded @sound kept count state)
include hguarded

theorem acquire_spec {c : Call Callback β} {f : β → Code Callback σ α} (hm : Keeping kept count m)
    (hplain : Plain kept c) (hspares : Spares kept c)
    (hnext : ∀ answer m', Outside kept c answer → Keeping (acquired c answer ++ kept) count m' →
      (handles @sound).wp post (f answer) state m') :
    (handles @sound).wp post (issue c >>= f) state m :=
  call_spec hm (hguarded m c hm hplain) hspares hplain.authorizes_eq hnext

theorem step_spec {c : Call Callback β} {f : β → Code Callback σ α} (hm : Keeping kept count m)
    (hplain : Plain kept c) (hspares : Spares kept c)
    (hnext : ∀ answer m', Outside kept c answer → Keeping kept count m' →
      (handles @sound).wp post (f answer) state m') :
    (handles @sound).wp post (issue c >>= f) state m := by
  apply acquire_spec hguarded hm hplain hspares
  exact fun answer m' houtside hkeeping =>
    hnext answer m' houtside (hkeeping.mono (List.subset_append_right _ _))

theorem fault_spec (hm : Keeping kept count m) :
    (handles @sound).wp post (fault : Code Callback σ α) state m := by
  have hplain : Plain kept (.fault : Call Callback Empty) := trivial
  have hspares : Spares kept (.fault : Call Callback Empty) := List.forall_mem_nil _
  exact step_spec hguarded hm hplain hspares fun answer => Empty.elim answer

theorem deref_spec {pointer : Option β} {f : β → Code Callback σ α} (hm : Keeping kept count m)
    (hnext : ∀ value, pointer = some value → (handles @sound).wp post (f value) state m) :
    (handles @sound).wp post (deref pointer >>= f) state m := by
  cases pointer with
  | none =>
    rw [Contract.wp_bind]
    exact fault_spec hguarded hm
  | some value => exact hnext value rfl

end Keeping

/-- An export fails with an error, or its buffer is none of the handles. -/
def Exported (kept : List Object) : Except Int32 Buffer → Prop
  | .error ret => ret ≠ 0
  | .ok buffer => (.heap, buffer.address) ∉ kept

section Common
variable {Callback σ : Type} {kept : List Object} {count : Nat} {m : Memory}
variable {sound : {β : Type} → σ → Memory → Call Callback β → Prop} {state : σ}
variable (hguarded : Guarded @sound kept count state) (hm : Keeping kept count m)
include hguarded hm

theorem zcashExport_spec {length : Nat} {exportImpl : Call Callback (FixedBytes length)}
    (hplain : Plain kept exportImpl) (hspares : Spares kept exportImpl) :
    (handles @sound).wp (Steady kept count state (Exported kept)) (zcashExport length exportImpl)
      state m := by
  unfold zcashExport
  apply step_spec hguarded hm
  · trivial
  · exact List.forall_mem_nil _
  intro answer m' houtside hm'
  cases answer with
  | none =>
    have hret : (-enomem : Int32) ≠ 0 := by decide
    exact ⟨rfl, hm', hret⟩
  | some address =>
    apply step_spec hguarded hm' hplain hspares
    intro raw m'' _ hm''
    have hnew : (.heap, address) ∉ kept := houtside _ (List.mem_singleton.mpr rfl)
    exact ⟨rfl, hm'', hnew⟩

theorem chainVerifier_spec (outcome : Blocks.Outcome) :
    (handles @sound).wp (Steady kept count state fun _ => True) (chainVerifier outcome) state m := by
  cases outcome with
  | returned value => exact ⟨rfl, hm, trivial⟩
  | panicked => exact fault_spec hguarded hm

end Common

section Wallets
variable {Callback σ : Type} {kept : List Object} {count : Nat} {m : Memory}
variable {sound : {β : Type} → σ → Memory → Call Callback β → Prop} {state : σ}

/-- Either nothing has been created, or a wallet of three new objects. -/
structure Created (kept : List Object) (count : Nat) (wallet : Option Wallet) (m : Memory) : Prop where
  keeping : Keeping (wallet.elim [] walletObjects ++ kept) count m
  outside : ∀ object ∈ wallet.elim [] walletObjects, object ∉ kept

theorem zcashCreateWallet_spec (hguarded : ∀ more, kept ⊆ more → Guarded @sound more count state)
    (hm : Keeping kept count m) :
    (handles @sound).wp (fun wallet last m' => last = state ∧ Created kept count wallet m')
      zcashCreateWallet state m := by
  unfold zcashCreateWallet
  apply acquire_spec (hguarded kept (List.Subset.refl _)) hm
  · trivial
  · exact List.forall_mem_nil _
  intro key m1 hkey hm1
  cases key with
  | none => exact ⟨rfl, hm1, List.forall_mem_nil _⟩
  | some key =>
    have hsub1 : kept ⊆ (.key, key) :: kept := List.subset_cons_self _ _
    have hnew1 : (.key, key) ∉ kept := hkey _ (List.mem_singleton.mpr rfl)
    apply acquire_spec (hguarded _ hsub1) hm1
    · exact List.mem_cons_self
    · exact List.forall_mem_nil _
    intro address m2 haddress hm2
    cases address with
    | none =>
      have hsound : sound state m2 (.zcashReleaseKey key) :=
        hguarded _ hsub1 m2 _ hm2 List.mem_cons_self
      apply call_spec (hm2.mono hsub1) hsound
      · exact List.forall_mem_singleton.mpr hnew1
      · rfl
      intro _ m3 _ hm3
      exact ⟨rfl, hm3, List.forall_mem_nil _⟩
    | some address =>
      have hsub2 : (.key, key) :: kept ⊆ (.address, address) :: (.key, key) :: kept :=
        List.subset_cons_self _ _
      have hnew2 : (.address, address) ∉ (.key, key) :: kept :=
        haddress _ (List.mem_singleton.mpr rfl)
      apply acquire_spec (hguarded _ (List.Subset.trans hsub1 hsub2)) hm2
      · trivial
      · exact List.forall_mem_nil _
      intro struct m3 hstruct hm3
      cases struct with
      | none =>
        have hsound : sound state m3 (.zcashReleaseAddress address) :=
          hguarded _ (List.Subset.trans hsub1 hsub2) m3 _ hm3 List.mem_cons_self
        apply call_spec (hm3.mono hsub2) hsound
        · exact List.forall_mem_singleton.mpr hnew2
        · rfl
        intro _ m4 _ hm4
        have hsound : sound state m4 (.zcashReleaseKey key) :=
          hguarded _ hsub1 m4 _ hm4 List.mem_cons_self
        apply call_spec (hm4.mono hsub1) hsound
        · exact List.forall_mem_singleton.mpr hnew1
        · rfl
        intro _ m5 _ hm5
        exact ⟨rfl, hm5, List.forall_mem_nil _⟩
      | some struct =>
        have hnew3 : (.heap, struct) ∉ (.address, address) :: (.key, key) :: kept :=
          hstruct _ (List.mem_singleton.mpr rfl)
        refine ⟨rfl, hm3.mono ?_, ?_⟩
        · intro object hobject
          simp only [walletObjects, Option.elim, acquired, Option.toList, List.map_cons,
            List.map_nil, List.mem_append, List.mem_cons, List.not_mem_nil] at hobject ⊢
          tauto
        · simp only [List.mem_cons, not_or] at hnew2 hnew3
          simp [walletObjects, hnew1, hnew2, hnew3]

theorem create_spec {α : Type} {post : α → σ → Memory → Prop} {f : Option Wallet → Code Callback σ α}
    (hguarded : ∀ more, kept ⊆ more → Guarded @sound more count state) (hm : Keeping kept count m)
    (hnext : ∀ wallet m', Created kept count wallet m' →
      (handles @sound).wp post (f wallet) state m') :
    (handles @sound).wp post (zcashCreateWallet >>= f) state m := by
  rw [Contract.wp_bind]
  refine Contract.wp_mono ?_ (zcashCreateWallet_spec hguarded hm)
  rintro wallet last m' ⟨rfl, hcreated⟩
  exact hnext wallet m' hcreated

/-- A wallet is released part by part, its structure last. -/
theorem zcashReleaseWallet_spec {lasting : List Owner} {owned : List Object} {wallets : List Wallet}
    {wallet : Wallet}
    (hsound : ∀ {β : Type} (m : Memory) (c : Call Callback β), Sound lasting owned wallets m c →
      c.Internal → sound state m c)
    (hm : Keeping (walletObjects wallet ++ kept) count m)
    (houtside : ∀ object ∈ walletObjects wallet, object ∉ kept)
    (hwallets : ∀ other ∈ wallets, ∀ object ∈ walletObjects wallet, object ∈ walletObjects other →
      (.heap, other.struct) ∈ (.heap, wallet.struct) :: kept) :
    (handles @sound).wp (Steady kept count state fun _ => True) (zcashReleaseWallet wallet) state m := by
  have hpart : ∀ {β : Type} (m : Memory) (c : Call Callback β) (object : Object),
      object ∈ walletObjects wallet → touched c = [object] → c.Internal →
      Keeping [object, (.heap, wallet.struct)] count m → Keeping kept count m → sound state m c := by
    intro β m c object hobject htouched hinternal hm hkept
    refine hsound m c ⟨?_, ?_⟩ hinternal
    · intro object' hobject' _
      rw [htouched, List.mem_singleton] at hobject'
      exact hm.live _ (hobject' ▸ List.mem_cons_self)
    · intro other hother object' hobject' hshared
      rw [htouched, List.mem_singleton] at hobject'
      rcases List.mem_cons.mp (hwallets other hother object hobject (hobject' ▸ hshared)) with
        hsame | hother
      · exact hm.live _ (hsame ▸ List.mem_cons_of_mem _ List.mem_cons_self)
      · exact hkept.live _ hother
  simp only [walletObjects, List.forall_mem_cons] at houtside
  obtain ⟨hstruct, hkey, haddress, _⟩ := houtside
  have hmem : ∀ object ∈ walletObjects wallet, object ∈ walletObjects wallet ++ kept :=
    fun object hobject => List.mem_append_left _ hobject
  simp only [walletObjects, List.forall_mem_cons] at hmem
  have hsub0 : kept ⊆ walletObjects wallet ++ kept := List.subset_append_right _ _
  have hlive1 : Keeping ((.key, wallet.key) :: (.heap, wallet.struct) :: kept) count m :=
    hm.mono (List.cons_subset.mpr ⟨hmem.2.1, List.cons_subset.mpr ⟨hmem.1, hsub0⟩⟩)
  have hparts1 : Keeping [(.address, wallet.address), (.heap, wallet.struct)] count m :=
    hm.mono (List.cons_subset.mpr ⟨hmem.2.2.1, List.cons_subset.mpr ⟨hmem.1, List.nil_subset _⟩⟩)
  have hsub1 : kept ⊆ (.heap, wallet.struct) :: kept := List.subset_cons_self _ _
  have hsub2 : kept ⊆ (.key, wallet.key) :: (.heap, wallet.struct) :: kept :=
    List.subset_cons_of_subset _ hsub1
  unfold zcashReleaseWallet
  apply call_spec hlive1
  · exact hpart m _ (.address, wallet.address) (by simp [walletObjects]) rfl trivial hparts1
      (hlive1.mono hsub2)
  · exact List.forall_mem_singleton.mpr (by simpa using haddress)
  · rfl
  intro _ m2 _ hm2
  have hlive2 : Keeping ((.heap, wallet.struct) :: kept) count m2 :=
    hm2.mono (List.subset_cons_self _ _)
  have hparts2 : Keeping [(.key, wallet.key), (.heap, wallet.struct)] count m2 :=
    hm2.mono (by simp [acquired])
  apply call_spec hlive2
  · exact hpart m2 _ (.key, wallet.key) (by simp [walletObjects]) rfl trivial hparts2
      (hlive2.mono hsub1)
  · exact List.forall_mem_singleton.mpr (by simpa using hkey)
  · rfl
  intro _ m3 _ hm3
  have hparts3 : Keeping [(.heap, wallet.struct), (.heap, wallet.struct)] count m3 :=
    hm3.mono (by simp [acquired])
  have hlive3 : Keeping kept count m3 := hm3.mono hsub1
  have hsound3 : sound state m3 (.free wallet.struct) :=
    hpart m3 _ (.heap, wallet.struct) (by simp [walletObjects]) rfl trivial hparts3 hlive3
  rw [← bind_pure (issue _)]
  apply call_spec hlive3 hsound3
  · exact List.forall_mem_singleton.mpr hstruct
  · rfl
  intro _ m4 _ hm4
  exact ⟨rfl, hm4, trivial⟩

end Wallets

section Connecting
variable {Callback σ α : Type} {sound : {β : Type} → σ → Memory → Call Callback β → Prop}
  {count : Nat} {base : List Object} {stash : Stash} {channel : Option Pointer}

/-- A stashed quote lies in a buffer of its own. -/
def stashed (stash : Stash) : List Object :=
  stash.quote.toList.map fun quote => (.heap, quote.address)

/-- The handles with the stash and the channel that is being set up. -/
def attempted (base : List Object) (stash : Stash) (channel : Option Pointer) : List Object :=
  channel.toList.map (.heap, ·) ++ (stashed stash ++ base)

/-- The handles, the stash and the channel are live, and none of them is another one. -/
structure Attempt (base : List Object) (count : Nat) (stash : Stash) (channel : Option Pointer)
    (m : Memory) : Prop where
  keeping : Keeping (attempted base stash channel) count m
  quote : ∀ object ∈ stashed stash, object ∉ base
  struct : ∀ object ∈ channel.toList.map (Owner.heap, ·), object ∉ stashed stash ++ base

/-- A buffer that is none of them. -/
def Clear (base : List Object) (stash : Stash) (channel : Option Pointer) (address : Pointer) : Prop :=
  (.heap, address) ∉ attempted base stash channel

theorem Clear.dropped {address : Pointer} (h : Clear base stash channel address) :
    Clear base stash none address :=
  fun hkept => h (List.mem_append_right _ hkept)

theorem Clear.unstashed {address : Pointer} (h : Clear base stash channel address) :
    Clear base {} channel address := by
  intro hkept
  rcases List.mem_append.mp hkept with hchannel | hbase
  · exact h (List.mem_append_left _ hchannel)
  · exact h (List.mem_append_right _ (List.mem_append_right _ hbase))

theorem Clear.emptied {address : Pointer} (h : Clear base stash channel address) :
    Clear base {} none address := h.unstashed.dropped

/-- From an attempt on, the program is sound and ends as described. -/
def Connects (sound : {β : Type} → σ → Memory → Call Callback β → Prop) (count : Nat)
    (base : List Object) (post : α → σ → Memory → Prop) (p : Code Callback σ α) (state : σ)
    (stash : Stash) (channel : Option Pointer) : Prop :=
  (∀ kept, base ⊆ kept → Guarded @sound kept count state) →
    ∀ m, Attempt base count stash channel m → (handles @sound).wp post p state m

variable {post : α → σ → Memory → Prop} {state : σ} {β : Type} {c : Call Callback β}
  {f : β → Code Callback σ α}

theorem base_subset : base ⊆ attempted base stash channel :=
  List.subset_append_of_subset_right _ (List.subset_append_right _ _)

/-- How an attempt ends: everything is live, and the result is as described. -/
def Ends (sound : {β : Type} → σ → Memory → Call Callback β → Prop) (count : Nat)
    (base : List Object) (good : α → σ → Stash → Option Pointer → Prop) (result : α) (last : σ)
    (m : Memory) : Prop :=
  (∀ kept, base ⊆ kept → Guarded @sound kept count last) ∧
    ∃ stash channel, Attempt base count stash channel m ∧ good result last stash channel

theorem end_step {good : α → σ → Stash → Option Pointer → Prop} {value : α}
    (h : good value state stash channel) :
    Connects @sound count base (Ends @sound count base good) (pure value) state stash channel :=
  fun hguarded _ hm => ⟨hguarded, stash, channel, hm, h⟩

theorem bind_step {p : Code Callback σ β} {good : β → σ → Stash → Option Pointer → Prop}
    (hp : Connects @sound count base (Ends @sound count base good) p state stash channel)
    (h : ∀ value last stash channel, good value last stash channel →
      Connects @sound count base post (f value) last stash channel) :
    Connects @sound count base post (p >>= f) state stash channel := by
  intro hguarded m hm
  rw [Contract.wp_bind]
  refine Contract.wp_mono ?_ (hp hguarded m hm)
  intro value last m' hends
  obtain ⟨hguarded', stash', channel', hm', hgood⟩ := hends
  exact h value last stash' channel' hgood hguarded' m' hm'

theorem get_step {f : σ → Code Callback σ α}
    (h : Connects @sound count base post (f state) state stash channel) :
    Connects @sound count base post ((MonadState.get : Code Callback σ σ) >>= f) state stash channel :=
  h

theorem modify_step {g : σ → σ} {f : PUnit → Code Callback σ α}
    (hguarded : ∀ kept, base ⊆ kept → Guarded @sound kept count (g state))
    (h : Connects @sound count base post (f ()) (g state) stash channel) :
    Connects @sound count base post (modify g >>= f) state stash channel :=
  fun _ => h hguarded

theorem fault_step :
    Connects @sound count base post (fault : Code Callback σ α) state stash channel :=
  fun hguarded _ hm => fault_spec (hguarded _ base_subset) hm.keeping

theorem deref_step {pointer : Option β}
    (h : ∀ value, Connects @sound count base post (f value) state stash channel) :
    Connects @sound count base post (deref pointer >>= f) state stash channel :=
  fun hguarded m hm => deref_spec (hguarded _ base_subset) hm.keeping
    fun value _ => h value hguarded m hm

/-- A call that gives nothing back. -/
theorem call_step (hplain : ∀ kept, Plain kept c) (hreleased : released c = [])
    (h : ∀ answer, Connects @sound count base post (f answer) state stash channel) :
    Connects @sound count base post (issue c >>= f) state stash channel := by
  intro hguarded m hm
  apply step_spec (hguarded _ base_subset) hm.keeping
  · exact hplain _
  · exact fun object hobject => absurd (hreleased ▸ hobject) List.not_mem_nil
  exact fun answer m' _ hm' => h answer hguarded m' ⟨hm', hm.quote, hm.struct⟩

/-- A call that is sound whatever is live, and that gives nothing back. -/
def Passive (c : Call Callback β) : Prop := (∀ kept, Plain kept c) ∧ released c = []

/-- The frame rule: passive calls leave the handles of the attempt as they are. -/
theorem passive_step {p : Code Callback σ β} (hp : p.Within (fun c => Passive c) (state = ·))
    (h : ∀ value, Connects @sound count base post (f value) state stash channel) :
    Connects @sound count base post (p >>= f) state stash channel := by
  induction p with
  | pure value => exact h value
  | get next ih => exact ih state (hp state rfl)
  | set state' next ih =>
    obtain ⟨rfl, hnext⟩ := hp
    exact ih hnext
  | call c next ih => exact call_step hp.1.1 hp.1.2 fun answer => ih answer (hp.2 answer)

theorem passive_end {p : Code Callback σ α} {good : α → σ → Stash → Option Pointer → Prop}
    (hp : p.Within (fun c => Passive c) (state = ·))
    (h : ∀ value, good value state stash channel) :
    Connects @sound count base (Ends @sound count base good) p state stash channel := by
  rw [← bind_pure p]
  exact passive_step hp fun value => end_step (h value)

/-- The keys and the report data are computed without a handle. -/
theorem digests_step {p : Code Callback σ β} (hp : p.Within Call.Digests (state = ·))
    (h : ∀ value, Connects @sound count base post (f value) state stash channel) :
    Connects @sound count base post (p >>= f) state stash channel := by
  refine passive_step (hp.mono fun c hc => ?_) h
  cases c with
  | sgxRijndael128CmacMsg | sgxCmac128Init | sgxSha256Init => exact ⟨fun _ => trivial, rfl⟩
  | _ => exact absurd hc id

theorem malloc_step {size : Nat} {f : Option Pointer → Code Callback σ α}
    (hnone : Connects @sound count base post (f none) state stash channel)
    (hsome : ∀ address, Clear base stash channel address →
      Connects @sound count base post (f (some address)) state stash channel) :
    Connects @sound count base post (issue (.malloc size) >>= f) state stash channel := by
  intro hguarded m hm
  apply step_spec (hguarded _ base_subset) hm.keeping
  · trivial
  · exact List.forall_mem_nil _
  intro address m' haddress hm'
  cases address with
  | none => exact hnone hguarded m' ⟨hm', hm.quote, hm.struct⟩
  | some address =>
    have hclear : Clear base stash channel address := haddress _ (List.mem_singleton.mpr rfl)
    exact hsome address hclear hguarded m' ⟨hm', hm.quote, hm.struct⟩

theorem receive_step {ref : ChannelRef} {f : Option ReceivedMessage → Code Callback σ α}
    (hnone : Connects @sound count base post (f none) state stash channel)
    (hsome : ∀ msg : ReceivedMessage, Clear base stash channel msg.address →
      Connects @sound count base post (f (some msg)) state stash channel) :
    Connects @sound count base post (issue (.auntieMsgReceive ref) >>= f) state stash channel := by
  intro hguarded m hm
  apply step_spec (hguarded _ base_subset) hm.keeping
  · trivial
  · exact List.forall_mem_nil _
  intro msg m' hmsg hm'
  cases msg with
  | none => exact hnone hguarded m' ⟨hm', hm.quote, hm.struct⟩
  | some msg =>
    have hclear : Clear base stash channel msg.address := hmsg _ (List.mem_singleton.mpr rfl)
    exact hsome msg hclear hguarded m' ⟨hm', hm.quote, hm.struct⟩

theorem free_step {address : Pointer} {f : Unit → Code Callback σ α}
    (hclear : Clear base stash channel address)
    (h : Connects @sound count base post (f ()) state stash channel) :
    Connects @sound count base post (issue (.free address) >>= f) state stash channel := by
  intro hguarded m hm
  apply step_spec (hguarded _ base_subset) hm.keeping
  · trivial
  · exact List.forall_mem_singleton.mpr hclear
  exact fun _ m' _ hm' => h hguarded m' ⟨hm', hm.quote, hm.struct⟩

theorem create_step {context : Pointer} {f : Option Pointer → Code Callback σ α}
    (hnone : Connects @sound count base post (f none) state stash none)
    (hsome : ∀ struct, Connects @sound count base post (f (some struct)) state stash (some struct)) :
    Connects @sound count base post (issue (.channelCreate context) >>= f) state stash none := by
  intro hguarded m hm
  apply acquire_spec (hguarded _ base_subset) hm.keeping
  · trivial
  · exact List.forall_mem_nil _
  intro struct m' hstruct hm'
  cases struct with
  | none => exact hnone hguarded m' ⟨hm', hm.quote, List.forall_mem_nil _⟩
  | some struct => exact hsome struct hguarded m' ⟨hm', hm.quote, hstruct⟩

theorem teardown_step {ref : ChannelRef} {struct : Pointer} {f : Unit → Code Callback σ α}
    (href : ref.address = struct)
    (h : Connects @sound count base post (f ()) state stash none) :
    Connects @sound count base post (issue (.channelTeardown ref) >>= f) state stash
      (some struct) := by
  subst href
  intro hguarded m hm
  have hkept : attempted base stash none ⊆ attempted base stash (some ref.address) :=
    List.subset_append_right _ _
  apply step_spec (hguarded _ base_subset) (hm.keeping.mono hkept)
  · trivial
  · exact hm.struct
  exact fun _ m' _ hm' => h hguarded m' ⟨hm', hm.quote, List.forall_mem_nil _⟩

/-- A stash only holds what it held before, or what a callback has put there. -/
theorem stashed_put (callbacks : List QuoteCallback) (stash : Stash) :
    stashed (callbacks.foldl Stash.put stash) ⊆
      (callbacks.filterMap QuoteCallback.stash).map (.heap, ·) ++ stashed stash := by
  induction callbacks generalizing stash with
  | nil => exact List.Subset.refl _
  | cons callback callbacks ih =>
    intro object hobject
    have hlater := ih _ hobject
    cases hcallback : callback.stash with
    | none =>
      have hput : stashed (stash.put callback) = [] := by simp [Stash.put, hcallback, stashed]
      rw [hput, List.append_nil] at hlater
      rw [List.filterMap_cons_none hcallback]
      exact List.mem_append_left _ hlater
    | some address =>
      have hput : stashed (stash.put callback) = [(.heap, address)] := by
        simp [Stash.put, hcallback, stashed]
      rw [hput] at hlater
      rw [List.filterMap_cons_some hcallback]
      simp only [List.map_cons, List.mem_append, List.mem_cons, List.not_mem_nil] at hlater ⊢
      tauto

theorem quote_step {report : Report} {f : Int32 × List QuoteCallback → Code Callback σ α}
    (h : ∀ ret callbacks, Connects @sound count base post (f (ret, callbacks)) state
      (callbacks.foldl Stash.put stash) channel) :
    Connects @sound count base post (issue (.ocallQuoteMe report) >>= f) state stash channel := by
  intro hguarded m hm
  apply acquire_spec (hguarded _ base_subset) hm.keeping
  · trivial
  · exact List.forall_mem_nil _
  rintro ⟨ret, callbacks⟩ m' hnew hm'
  refine h ret callbacks hguarded m' ⟨hm'.mono ?_, ?_, ?_⟩
  · refine List.append_subset.mpr ⟨?_, List.append_subset.mpr ⟨?_, ?_⟩⟩
    · exact List.subset_append_of_subset_right _ (List.subset_append_left _ _)
    · refine List.Subset.trans (stashed_put callbacks stash) (List.append_subset.mpr ⟨?_, ?_⟩)
      · exact List.subset_append_left _ _
      · refine List.subset_append_of_subset_right _ (List.subset_append_of_subset_right _ ?_)
        exact List.subset_append_left _ _
    · exact List.subset_append_of_subset_right _ base_subset
  · intro object hobject hbase
    rcases List.mem_append.mp (stashed_put callbacks stash hobject) with hput | hold
    · exact hnew object hput (base_subset hbase)
    · exact hm.quote object hold hbase
  · intro object hobject hkept
    rcases List.mem_append.mp hkept with hstash | hbase
    · rcases List.mem_append.mp (stashed_put callbacks stash hstash) with hput | hold
      · exact hnew object hput (List.mem_append_left _ hobject)
      · exact hm.struct object hobject (List.mem_append_left _ hold)
    · exact hm.struct object hobject (List.mem_append_right _ hbase)

/-- The free of the stashed quote. -/
theorem drop_step {quote : Buffer} {f : Unit → Code Callback σ α} (hquote : stash.quote = some quote)
    (h : Connects @sound count base post (f ()) state {} channel) :
    Connects @sound count base post (issue (.free quote.address) >>= f) state stash channel := by
  have hstashed : stashed stash = [(.heap, quote.address)] := by simp [stashed, hquote]
  have hempty : stashed {} = [] := rfl
  intro hguarded m hm
  have hkept : attempted base {} channel ⊆ attempted base stash channel := by
    refine List.append_subset.mpr ⟨List.subset_append_left _ _, ?_⟩
    exact List.Subset.trans (List.Subset.refl _) base_subset
  apply step_spec (hguarded _ base_subset) (hm.keeping.mono hkept)
  · trivial
  · refine List.forall_mem_singleton.mpr fun hobject => ?_
    rcases List.mem_append.mp hobject with hchannel | hbase
    · refine hm.struct _ hchannel (List.mem_append_left _ ?_)
      rw [hstashed]
      exact List.mem_singleton.mpr rfl
    · refine hm.quote _ ?_ hbase
      rw [hstashed]
      exact List.mem_singleton.mpr rfl
  intro _ m' _ hm'
  refine h hguarded m' ⟨hm', List.forall_mem_nil _, fun object hobject hkept => ?_⟩
  exact hm.struct object hobject (List.mem_append_right _ hkept)

/-- Without a quote there is nothing to free. -/
theorem forget_step {p : Code Callback σ α} (hquote : stash.quote = none)
    (h : Connects @sound count base post p state {} channel) :
    Connects @sound count base post p state stash channel := by
  have hstashed : stashed stash = stashed {} := by simp [stashed, hquote]
  intro hguarded m hm
  obtain ⟨hkeeping, hapart, hstruct⟩ := hm
  rw [attempted, hstashed] at hkeeping
  rw [hstashed] at hapart hstruct
  exact h hguarded m ⟨hkeeping, hapart, hstruct⟩

end Connecting

end Auntie.Guarantees.Handles
