import Auntie.Ledger
import Auntie.Source.Operator.Entry
import Auntie.Source.Player.Entry

/-!
# Messages and channels of a handshake

Both sides of the handshake create or receive three messages, and leave by some fifteen exits that
each clean up by hand. Three of them are out of step. The operator destroys the SYN a second time
when no report can be created, and the ACK when there is no memory for the player; the player,
without memory for the SYN, tears its channel down and goes on with `NULL`.
-/

namespace Auntie.Guarantees.AttestationHandles
open Auntie.Source Auntie.Interaction
open Blocks (Digest)

section Statement

inductive Handle where
  | message (address : Pointer)
  | channel (address : Pointer)
  deriving DecidableEq

/-- What an allocation is for. -/
inductive Role where
  /-- `auntie_msg_create` -/
  | message
  /-- The copy of the quote in the message at hand. -/
  | quote
  /-- The object that is returned. -/
  | object
  deriving DecidableEq

/-- The allocations of a handshake in their order. -/
abbrev operatorRoles : List Role := [.message, .quote, .object]

abbrev playerRoles : List Role := [.message, .quote, .message, .object]

structure Account where
  ledger : Ledger Handle := {}
  /-- A handle was used that was not live, or `NULL`. -/
  misused : Bool := false
  /-- The message that has been created or received and not been destroyed. -/
  message : Option Pointer := none
  /-- `ocall_quote_me` has returned, and what it stashed has not been dropped. -/
  quoted : Bool := false
  /-- `stashed_quote` and `stashed_quote_size`, which outlive an attempt. -/
  stash : Stash := {}
  /-- Which allocations have succeeded. -/
  allocations : List Bool := []
  unreported : Bool := false

namespace Account
variable {Callback β : Type} (roles : List Role) (account : Account)

def role : Option Role := roles[account.allocations.length]?

def messageLive : Bool :=
  account.message.any fun address => decide (Handle.message address ∈ account.ledger.live)

def channelLive (channel : ChannelRef) : Bool :=
  decide (Handle.channel channel.address ∈ account.ledger.live)

/-- The call reads and writes through live handles only. -/
def uses : Call Callback β → Bool
  | .fault => false
  | .auntieMsgReceive channel => account.channelLive channel
  | .auntieMsgSend _ channel => account.messageLive && account.channelLive channel
  | .sgxEcc256ComputeSharedDhkey _ _ | .sgxSha256Init | .sgxCmac128Init => account.messageLive
  | .malloc size =>
    match account.role roles with
    | some .message => decide (sizeofMessageHeader ≤ size)
    | some .quote => account.messageLive
    | some .object => true
    | none => false
  | _ => true

/-- The address is the one the quote of this attempt has been stashed at. -/
def drops (address : Pointer) : Bool :=
  account.quoted && account.stash.quote.any fun quote => decide (quote.address = address)

/-- What is destroyed; the stashed quote is a handle of nobody. -/
def released : Call Callback β → List Handle
  | .free address => if account.drops address then [] else [.message address]
  | .channelTeardown channel => [.channel channel.address]
  | _ => []

/-- The call is issued. -/
def issue (c : Call Callback β) : Account where
  ledger := account.ledger.release (account.released c)
  misused := account.misused || !account.uses roles c
  message :=
    match c with
    | .free address => if account.drops address then account.message else none
    | _ => account.message
  quoted :=
    match c with
    | .free address => account.quoted && !account.drops address
    | _ => account.quoted
  stash :=
    match c with
    | .free address => if account.drops address then {} else account.stash
    | _ => account.stash
  allocations := account.allocations
  unreported := account.unreported

/-- The call is answered. -/
def answer : Call Callback β → β → Account
  | .channelCreate _, struct =>
    { account with ledger := account.ledger.acquire (struct.toList.map .channel) }
  | .auntieMsgReceive _, msg =>
    { account with
      ledger := account.ledger.acquire (msg.toList.map fun msg => .message msg.address)
      message := msg.map ReceivedMessage.address }
  | .malloc _, address =>
    let allocated := { account with allocations := account.allocations ++ [address.isSome] }
    if account.role roles = some .message then
      { allocated with
        ledger := account.ledger.acquire (address.toList.map .message)
        message := address }
    else allocated
  | .sgxCreateReport _ _, report => { account with unreported := account.unreported || report.isNone }
  | .ocallQuoteMe _, quoting =>
    { account with quoted := true, stash := quoting.2.foldl Stash.put account.stash }
  | _, _ => account

/-- Nothing has been destroyed that was not live, or used. -/
def Clean : Prop := account.misused = false ∧ account.ledger.excess = 0

end Account

attribute [simp] Account.answer Account.drops Account.released Account.uses Account.issue

variable {Callback σ : Type}

/-- Reads the events of one attempt. `spares` is what it says of the calls that failed so far: the
account stays clean as long as it holds. -/
def accounts (roles : List Role) (spares : List Bool → Bool → Prop) :
    Monitor (Call Callback) σ Account where
  issued account c := account.issue roles c
  answered account c answer := account.answer roles c answer
  safe _ account c :=
    spares account.allocations account.unreported → (account.issue roles c).Clean

def Account.observe (roles : List Role) (account : Account) : Event (Call Callback) → Account
  | .issued c => account.issue roles c
  | .answered c answer => account.answer roles c answer

/-- The account of an attempt that begins with the handles and the stash of earlier ones. -/
def accountOf (roles : List Role) (ledger : Ledger Handle) (stash : Stash)
    (events : List (Event (Call Callback))) : Account :=
  events.foldl (Account.observe roles) { ledger := ledger, stash := stash }

end Statement

section Steps

/-- The calls that touch no handle. -/
def Neutral {Callback β : Type} : Call Callback β → Prop
  | .sgxReadRand _ | .sgxEcc256OpenContext | .sgxEcc256CreateKeyPair => True
  | .sgxEcc256CloseContext | .sgxRijndael128CmacMsg => True
  | _ => False

/-- The calls that read the message at hand. -/
def Reads {Callback β : Type} : Call Callback β → Prop
  | .sgxEcc256ComputeSharedDhkey _ _ | .sgxSha256Init | .sgxCmac128Init => True
  | _ => False

variable {Callback σ α : Type} {roles : List Role} {spares : List Bool → Bool → Prop}
  {post : α → σ → Account → Prop} {state : σ} {rest : Multiset Handle}
  {channel message : Option Pointer} {quoted unreported : Bool} {stash : Stash}
  {allocations : List Bool}

/-- At most a channel and a message besides the handles of others. -/
def handles (rest : Multiset Handle) (channel message : Option Pointer) : Multiset Handle :=
  message.elim (channel.elim rest (.channel · ::ₘ rest))
    (.message · ::ₘ channel.elim rest (.channel · ::ₘ rest))

/-- An account in which nothing went wrong. -/
def holding (rest : Multiset Handle) (channel message : Option Pointer) (quoted : Bool)
    (stash : Stash) (allocations : List Bool) (unreported : Bool) : Account where
  ledger := ⟨handles rest channel message, 0⟩
  message := message
  quoted := quoted
  stash := stash
  allocations := allocations
  unreported := unreported

theorem holding_clean : (holding rest channel message quoted stash allocations unreported).Clean :=
  ⟨rfl, rfl⟩

theorem holding_messageLive {address : Pointer} :
    (holding rest channel (some address) quoted stash allocations unreported).messageLive = true := by
  simp [Account.messageLive, holding, handles]

theorem holding_channelLive {ref : ChannelRef} :
    (holding rest (some ref.address) message quoted stash allocations unreported).channelLive ref =
      true := by
  cases message with
  | none => simp [Account.channelLive, holding, handles]
  | some address => simp [Account.channelLive, holding, handles]

variable {β : Type} {c : Call Callback β} {f : β → Program (Call Callback) σ α}

/-- A call that is issued and answered with what is expected. -/
theorem call_step {account issued : Account} (hissue : account.issue roles c = issued)
    (hclean : issued.Clean)
    (h : ∀ answer, wp (accounts roles spares) post (f answer) state (issued.answer roles c answer)) :
    wp (accounts roles spares) post (Interaction.issue c >>= f) state account := by
  subst hissue
  rw [wp_bind, wp_issue]
  exact ⟨fun _ => hclean, h⟩

theorem neutral_step (hc : Neutral c) (h : ∀ answer, wp (accounts roles spares) post (f answer) state
      (holding rest channel message quoted stash allocations unreported)) :
    wp (accounts roles spares) post (Interaction.issue c >>= f) state
      (holding rest channel message quoted stash allocations unreported) := by
  have hissue : (holding rest channel message quoted stash allocations unreported).issue roles c =
      holding rest channel message quoted stash allocations unreported := by
    cases c with
    | sgxReadRand | sgxEcc256OpenContext | sgxEcc256CreateKeyPair => rfl
    | sgxEcc256CloseContext | sgxRijndael128CmacMsg => rfl
    | _ => exact absurd hc id
  refine call_step hissue holding_clean fun answer => ?_
  have hanswer : (holding rest channel message quoted stash allocations unreported).answer roles c answer =
      holding rest channel message quoted stash allocations unreported := by
    cases c with
    | sgxReadRand | sgxEcc256OpenContext | sgxEcc256CreateKeyPair => rfl
    | sgxEcc256CloseContext | sgxRijndael128CmacMsg => rfl
    | _ => exact absurd hc id
  exact hanswer.symm ▸ h answer

theorem report_step {target : TargetInfo} {data : ReportData}
    {f : Option Report → Program (Call Callback) σ α}
    (hnone : wp (accounts roles spares) post (f none) state
      (holding rest channel message quoted stash allocations true))
    (hsome : ∀ report, wp (accounts roles spares) post (f (some report)) state
      (holding rest channel message quoted stash allocations false)) :
    wp (accounts roles spares) post (Interaction.issue (.sgxCreateReport target data) >>= f) state
      (holding rest channel message quoted stash allocations false) := by
  have hissue : (holding rest channel message quoted stash allocations false).issue roles
      (.sgxCreateReport target data : Call Callback (Option Report)) =
        holding rest channel message quoted stash allocations false := rfl
  refine call_step hissue holding_clean fun report => ?_
  cases report with
  | none => exact hnone
  | some report => exact hsome report

theorem quote_step {report : Report} {f : Int32 × List QuoteCallback → Program (Call Callback) σ α}
    (h : ∀ ret callbacks, wp (accounts roles spares) post (f (ret, callbacks)) state
      (holding rest channel message true (callbacks.foldl Stash.put stash) allocations
        unreported)) :
    wp (accounts roles spares) post (Interaction.issue (.ocallQuoteMe report) >>= f) state
      (holding rest channel message quoted stash allocations unreported) := by
  have hissue : (holding rest channel message quoted stash allocations unreported).issue roles
      (.ocallQuoteMe report : Call Callback (Int32 × List QuoteCallback)) =
        holding rest channel message quoted stash allocations unreported := rfl
  refine call_step hissue holding_clean fun quoting => ?_
  obtain ⟨ret, callbacks⟩ := quoting
  exact h ret callbacks

theorem create_step {context : Pointer} {f : Option Pointer → Program (Call Callback) σ α}
    (hnone : wp (accounts roles spares) post (f none) state
      (holding rest none none quoted stash allocations unreported))
    (hsome : ∀ struct, wp (accounts roles spares) post (f (some struct)) state
      (holding rest (some struct) none quoted stash allocations unreported)) :
    wp (accounts roles spares) post (Interaction.issue (.channelCreate context) >>= f) state
      (holding rest none none quoted stash allocations unreported) := by
  have hissue : (holding rest none none quoted stash allocations unreported).issue roles
      (.channelCreate context : Call Callback (Option Pointer)) =
        holding rest none none quoted stash allocations unreported := rfl
  refine call_step hissue holding_clean fun struct => ?_
  cases struct with
  | none =>
    have hanswer : (holding rest none none quoted stash allocations unreported).answer roles
        (.channelCreate context : Call Callback (Option Pointer)) none =
          holding rest none none quoted stash allocations unreported := by
      simp [Account.answer, holding]
    rw [hanswer]
    exact hnone
  | some struct =>
    have hanswer : (holding rest none none quoted stash allocations unreported).answer roles
        (.channelCreate context : Call Callback (Option Pointer)) (some struct) =
          holding rest (some struct) none quoted stash allocations unreported := by
      simp [Account.answer, holding, handles]
    rw [hanswer]
    exact hsome struct

theorem receive_step {ref : ChannelRef} {struct : Pointer}
    {f : Option ReceivedMessage → Program (Call Callback) σ α} (href : ref.address = struct)
    (hnone : wp (accounts roles spares) post (f none) state
      (holding rest (some struct) none quoted stash allocations unreported))
    (hsome : ∀ msg : ReceivedMessage, wp (accounts roles spares) post (f (some msg)) state
      (holding rest (some struct) (some msg.address) quoted stash allocations unreported)) :
    wp (accounts roles spares) post (Interaction.issue (.auntieMsgReceive ref) >>= f) state
      (holding rest (some struct) none quoted stash allocations unreported) := by
  subst href
  have hissue : (holding rest (some ref.address) none quoted stash allocations unreported).issue roles
      (.auntieMsgReceive ref : Call Callback (Option ReceivedMessage)) =
        holding rest (some ref.address) none quoted stash allocations unreported := by
    simp [Account.issue, Account.uses, holding_channelLive, Account.released]
  refine call_step hissue holding_clean fun msg => ?_
  cases msg with
  | none =>
    have hanswer : (holding rest (some ref.address) none quoted stash allocations unreported).answer roles
        (.auntieMsgReceive ref : Call Callback (Option ReceivedMessage)) none =
          holding rest (some ref.address) none quoted stash allocations unreported := by
      simp [Account.answer, holding]
    rw [hanswer]
    exact hnone
  | some msg =>
    have hanswer : (holding rest (some ref.address) none quoted stash allocations unreported).answer roles
        (.auntieMsgReceive ref : Call Callback (Option ReceivedMessage)) (some msg) =
          holding rest (some ref.address) (some msg.address) quoted stash allocations unreported := by
      simp [Account.answer, holding, handles]
    rw [hanswer]
    exact hsome msg

theorem read_step {address : Pointer} (hc : Reads c)
    (h : ∀ answer, wp (accounts roles spares) post (f answer) state
      (holding rest channel (some address) quoted stash allocations unreported)) :
    wp (accounts roles spares) post (Interaction.issue c >>= f) state
      (holding rest channel (some address) quoted stash allocations unreported) := by
  have hissue : (holding rest channel (some address) quoted stash allocations unreported).issue roles c =
      holding rest channel (some address) quoted stash allocations unreported := by
    cases c with
    | sgxEcc256ComputeSharedDhkey | sgxSha256Init | sgxCmac128Init =>
      simp [Account.issue, Account.uses, holding_messageLive, Account.released]
    | _ => exact absurd hc id
  refine call_step hissue holding_clean fun answer => ?_
  have hanswer : (holding rest channel (some address) quoted stash allocations unreported).answer roles c
      answer = holding rest channel (some address) quoted stash allocations unreported := by
    cases c with
    | sgxEcc256ComputeSharedDhkey | sgxSha256Init | sgxCmac128Init => rfl
    | _ => exact absurd hc id
  rw [hanswer]
  exact h answer

theorem shared_step {address : Pointer} {own : PrivateKey} {peer : PublicKey}
    {f : Option SharedKey → Program (Call Callback) σ α}
    (h : ∀ answer, wp (accounts roles spares) post (f answer) state
      (holding rest channel (some address) quoted stash allocations unreported)) :
    wp (accounts roles spares) post
      (Interaction.issue (.sgxEcc256ComputeSharedDhkey own peer) >>= f) state
      (holding rest channel (some address) quoted stash allocations unreported) :=
  read_step True.intro h

theorem send_step {address struct : Pointer} {msg : Message} {ref : ChannelRef}
    {f : Int32 → Program (Call Callback) σ α} (href : ref.address = struct)
    (h : ∀ ret, wp (accounts roles spares) post (f ret) state
      (holding rest (some struct) (some address) quoted stash allocations unreported)) :
    wp (accounts roles spares) post (Interaction.issue (.auntieMsgSend msg ref) >>= f) state
      (holding rest (some struct) (some address) quoted stash allocations unreported) := by
  subst href
  have hissue : (holding rest (some ref.address) (some address) quoted stash allocations
      unreported).issue roles (.auntieMsgSend msg ref : Call Callback Int32) =
        holding rest (some ref.address) (some address) quoted stash allocations unreported := by
    simp [Account.issue, Account.uses, holding_messageLive, holding_channelLive, Account.released]
  exact call_step hissue holding_clean h

theorem teardown_step {ref : ChannelRef} {struct : Pointer} {f : Unit → Program (Call Callback) σ α}
    (href : ref.address = struct)
    (h : wp (accounts roles spares) post (f ()) state
      (holding rest none message quoted stash allocations unreported)) :
    wp (accounts roles spares) post (Interaction.issue (.channelTeardown ref) >>= f) state
      (holding rest (some struct) message quoted stash allocations unreported) := by
  subst href
  have hissue : (holding rest (some ref.address) message quoted stash allocations unreported).issue roles
      (.channelTeardown ref : Call Callback Unit) =
        holding rest none message quoted stash allocations unreported := by
    cases message with
    | none => simp [Account.issue, Account.uses, Account.released, holding, handles]
    | some address =>
      simp [Account.issue, Account.uses, Account.released, holding, handles,
        Multiset.cons_swap (Handle.message address)]
  exact call_step hissue holding_clean fun _ => h

theorem free_step {address : Pointer} {f : Unit → Program (Call Callback) σ α}
    (h : wp (accounts roles spares) post (f ()) state
      (holding rest channel none false stash allocations unreported)) :
    wp (accounts roles spares) post (Interaction.issue (.free address) >>= f) state
      (holding rest channel (some address) false stash allocations unreported) := by
  have hissue : (holding rest channel (some address) false stash allocations unreported).issue roles
      (.free address : Call Callback Unit) =
        holding rest channel none false stash allocations unreported := by
    simp [Account.issue, Account.uses, Account.released, holding, handles]
  exact call_step hissue holding_clean fun _ => h

/-- The free of the stashed quote. -/
theorem drop_step {quote : Buffer} {f : Unit → Program (Call Callback) σ α}
    (hstash : stash.quote = some quote)
    (h : wp (accounts roles spares) post (f ()) state
      (holding rest channel message false {} allocations unreported)) :
    wp (accounts roles spares) post (Interaction.issue (.free quote.address) >>= f) state
      (holding rest channel message true stash allocations unreported) := by
  have hissue : (holding rest channel message true stash allocations unreported).issue roles
      (.free quote.address : Call Callback Unit) =
        holding rest channel message false {} allocations unreported := by
    simp [Account.issue, Account.uses, Account.released, holding, hstash]
  exact call_step hissue holding_clean fun _ => h

/-- A message that has been destroyed already. -/
theorem refree_step {address : Pointer} {f : Unit → Program (Call Callback) σ α}
    (hspares : ¬ spares allocations unreported) (hrest : ∀ a, Handle.message a ∉ rest)
    (h : ∀ account : Account, ¬ spares account.allocations account.unreported →
      account.ledger.excess ≠ 0 → wp (accounts roles spares) post (f ()) state account) :
    wp (accounts roles spares) post (Interaction.issue (.free address) >>= f) state
      (holding rest none none false stash allocations unreported) := by
  rw [wp_bind, wp_issue]
  refine ⟨fun hspared => absurd hspared hspares, fun _ => h _ hspares ?_⟩
  simp [accounts, Account.issue, Account.answer, Account.released, holding, handles, Ledger.release,
    Ledger.releaseOne, hrest]

section Malloc
variable {size : Nat} {f : Option Pointer → Program (Call Callback) σ α}

theorem message_step (hrole : roles[allocations.length]? = some .message)
    (hnone : wp (accounts roles spares) post (f none) state
      (holding rest channel none quoted stash (allocations ++ [false]) unreported))
    (hsome : ∀ address, wp (accounts roles spares) post (f (some address)) state
      (holding rest channel (some address) quoted stash (allocations ++ [true]) unreported)) :
    wp (accounts roles spares) post (Interaction.issue (.malloc (sizeofMessageHeader + size)) >>= f) state
      (holding rest channel none quoted stash allocations unreported) := by
  have hissue : (holding rest channel none quoted stash allocations unreported).issue roles
      (.malloc (sizeofMessageHeader + size) : Call Callback (Option Pointer)) =
        holding rest channel none quoted stash allocations unreported := by
    simp [Account.issue, Account.uses, Account.role, Account.released, holding, hrole]
  refine call_step hissue holding_clean fun address => ?_
  cases address with
  | none =>
    have hanswer : (holding rest channel none quoted stash allocations unreported).answer roles
        (.malloc (sizeofMessageHeader + size) : Call Callback (Option Pointer)) none =
          holding rest channel none quoted stash (allocations ++ [false]) unreported := by
      simp [Account.answer, Account.role, holding, hrole]
    rw [hanswer]
    exact hnone
  | some address =>
    have hanswer : (holding rest channel none quoted stash allocations unreported).answer roles
        (.malloc (sizeofMessageHeader + size) : Call Callback (Option Pointer)) (some address) =
          holding rest channel (some address) quoted stash (allocations ++ [true]) unreported := by
      simp [Account.answer, Account.role, holding, hrole, handles]
    rw [hanswer]
    exact hsome address

/-- An allocation that is for no message. -/
theorem other_step (hrole : roles[allocations.length]? = some .quote ∧ message.isSome ∨
      roles[allocations.length]? = some .object)
    (hnone : wp (accounts roles spares) post (f none) state
      (holding rest channel message quoted stash (allocations ++ [false]) unreported))
    (hsome : ∀ address, wp (accounts roles spares) post (f (some address)) state
      (holding rest channel message quoted stash (allocations ++ [true]) unreported)) :
    wp (accounts roles spares) post (Interaction.issue (.malloc size) >>= f) state
      (holding rest channel message quoted stash allocations unreported) := by
  have hissue : (holding rest channel message quoted stash allocations unreported).issue roles
      (.malloc size : Call Callback (Option Pointer)) =
        holding rest channel message quoted stash allocations unreported := by
    have huses : (holding rest channel message quoted stash allocations unreported).uses roles
        (.malloc size : Call Callback (Option Pointer)) = true := by
      rcases hrole with ⟨hrole, hmessage⟩ | hrole
      · obtain ⟨address, rfl⟩ := Option.isSome_iff_exists.mp hmessage
        have hrole' : (holding rest channel (some address) quoted stash allocations unreported).role roles =
            some .quote := hrole
        simp [Account.uses, hrole', holding_messageLive]
      · have hrole' : (holding rest channel message quoted stash allocations unreported).role roles =
            some .object := hrole
        simp [Account.uses, hrole']
    simp [-Account.uses, huses]
  refine call_step hissue holding_clean fun address => ?_
  have hanswer : (holding rest channel message quoted stash allocations unreported).answer roles
      (.malloc size : Call Callback (Option Pointer)) address =
        holding rest channel message quoted stash (allocations ++ [address.isSome]) unreported := by
    have hmessage : roles[allocations.length]? ≠ some .message := by
      rcases hrole with ⟨hrole, _⟩ | hrole
      · simp [hrole]
      · simp [hrole]
    simp [Account.answer, Account.role, holding, hmessage]
  rw [hanswer]
  cases address with
  | none => exact hnone
  | some address => exact hsome address

end Malloc

theorem get_step {f : σ → Program (Call Callback) σ α} {account : Account}
    (h : wp (accounts roles spares) post (f state) state account) :
    wp (accounts roles spares) post ((MonadState.get : Program (Call Callback) σ σ) >>= f) state
      account := h

theorem modify_step {g : σ → σ} {f : PUnit → Program (Call Callback) σ α} {account : Account}
    (h : wp (accounts roles spares) post (f ()) (g state) account) :
    wp (accounts roles spares) post (modify g >>= f) state account := h

theorem fault_step {account : Account} (hspares : ¬ spares account.allocations account.unreported) :
    wp (accounts roles spares) post (fault : Program (Call Callback) σ α) state account :=
  wp_fault.mpr fun hspared => absurd hspared hspares

/-- How an attempt ends: besides the handles of others at most the channel of the object is live,
unless a call has failed that it does not survive. -/
def Ends (spares : List Bool → Bool → Prop) (rest : Multiset Handle) (channel : Option Pointer)
    (account : Account) : Prop :=
  spares account.allocations account.unreported ∧ account.misused = false ∧
      account.ledger = ⟨handles rest channel none, 0⟩ ∨
    ¬ spares account.allocations account.unreported ∧ account.ledger.excess ≠ 0

theorem Ends.of_holding (h : spares allocations unreported) :
    Ends spares rest channel (holding rest channel none quoted stash allocations unreported) :=
  .inl ⟨h, rfl, rfl⟩

/-- The frame rule: code that only reads the message at hand leaves the account as it is. -/
theorem digests_step {p : Program (Call Callback) σ β} {address : Pointer}
    (hp : p.Within Call.Digests (state = ·))
    (h : ∀ value, wp (accounts roles spares) post (f value) state
      (holding rest channel (some address) quoted stash allocations unreported)) :
    wp (accounts roles spares) post (p >>= f) state
      (holding rest channel (some address) quoted stash allocations unreported) := by
  induction p with
  | pure value => exact h value
  | get next ih => exact ih state (hp state rfl)
  | set state' next ih =>
    obtain ⟨rfl, hnext⟩ := hp
    exact ih hnext
  | call c next ih =>
    have hstep : ∀ answer, wp (accounts roles spares) post (next answer >>= f) state
        (holding rest channel (some address) quoted stash allocations unreported) :=
      fun answer => ih answer (hp.2 answer)
    cases c with
    | sgxRijndael128CmacMsg => exact neutral_step True.intro hstep
    | sgxCmac128Init | sgxSha256Init => exact read_step True.intro hstep
    | _ => exact absurd hp.1 id

end Steps

theorem stored_of_get {stash : Stash} {quote : Buffer} (h : stash.get = some quote) :
    stash.quote = some quote := by
  rw [Stash.get] at h
  split at h
  · cases h
  · exact h

/-- A report can be created, and there is memory for the player. -/
def operatorSpares (allocations : List Bool) (unreported : Bool) : Prop :=
  unreported = false ∧ allocations[2]? ≠ some false

/-- There is memory for the SYN. -/
def playerSpares (allocations : List Bool) (_ : Bool) : Prop := allocations[0]? ≠ some false

instance (allocations : List Bool) (unreported : Bool) :
    Decidable (operatorSpares allocations unreported) :=
  inferInstanceAs (Decidable (_ ∧ _))

instance (allocations : List Bool) (unreported : Bool) :
    Decidable (playerSpares allocations unreported) :=
  inferInstanceAs (Decidable (_ ≠ _))

section Operator
open Operator
variable {globals : Globals} {rest : Multiset Handle} (hrest : ∀ address, Handle.message address ∉ rest)

/-- What a handshake leaves. -/
def Left (rest : Multiset Handle) (player : Option Player) (_ : Globals) (account : Account) : Prop :=
  Ends operatorSpares rest (player.map (·.channel.address)) account

include hrest in
theorem receiveAck_left (channel : ChannelRef) (playerReportData : ReportData) :
    wp (accounts operatorRoles operatorSpares) (Left rest) (receiveAck channel playerReportData)
      globals (holding rest (some channel.address) none false stash [true] false) := by
  unfold receiveAck
  repeat' with_reducible first
    | apply receive_step
    | apply teardown_step
    | apply free_step
    | apply other_step
    | apply refree_step
    | intro _
    | dsimp only
    | split
  all_goals first
    | rfl
    | exact .inl ⟨rfl, rfl⟩
    | exact .inr rfl
    | exact Ends.of_holding (by decide)
    | exact fun hspared => hspared.2 rfl
    | exact hrest _
    | exact .inr ⟨‹_›, ‹_›⟩

theorem dropStashedQuote_step {α : Type} {channel message : Option Pointer} {stash : Stash}
    {allocations : List Bool} {unreported : Bool} {f : PUnit → Code α} {post : α → Globals → Account → Prop}
    (hstash : globals.stash = stash) (hquote : stash.get.isSome)
    (h : wp (accounts operatorRoles operatorSpares) post (f ()) { globals with stash := {} }
      (holding rest channel message false {} allocations unreported)) :
    wp (accounts operatorRoles operatorSpares) post (dropStashedQuote >>= f) globals
      (holding rest channel message true stash allocations unreported) := by
  subst hstash
  obtain ⟨quote, hstored⟩ := Option.isSome_iff_exists.mp hquote
  have hstored : globals.stash.quote = some quote := stored_of_get hstored
  unfold dropStashedQuote
  rw [wp_bind, wp_bind, wp_get, hstored]
  exact drop_step hstored h

include hrest in
theorem answerSyn_left (channel : ChannelRef) (msg1 : Pointer) (nonce : Digest) (gb : PublicKey)
    (sessionKey : SessionKey) (operatorReportData playerReportData : ReportData) :
    wp (accounts operatorRoles operatorSpares) (Left rest)
      (answerSyn channel msg1 nonce gb sessionKey operatorReportData playerReportData) globals
      (holding rest (some channel.address) none false globals.stash [] false) := by
  unfold answerSyn stashQuotes
  repeat' with_reducible first
    | apply report_step
    | apply quote_step
    | apply message_step
    | apply send_step
    | apply teardown_step
    | apply dropStashedQuote_step
    | apply free_step
    | apply refree_step
    | apply get_step
    | apply modify_step
    | intro _
    | dsimp only
    | split
  all_goals first
    | rfl
    | exact .inl ⟨rfl, rfl⟩
    | exact .inr rfl
    | exact Ends.of_holding (by decide)
    | exact fun hspared => Bool.noConfusion hspared.1
    | exact hrest _
    | exact .inr ⟨‹_›, ‹_›⟩
    | exact Option.isSome_iff_exists.mpr ⟨_, ‹_›⟩
    | exact receiveAck_left hrest (channel.encrypt sessionKey) _

include hrest in
theorem mutualAttestation_left (tcrypto : Tcrypto) (numPlayers : Nat) (context : Pointer) :
    wp (accounts operatorRoles operatorSpares) (Left rest)
      (mutualAttestation tcrypto numPlayers context) globals
      (holding rest none none false globals.stash [] false) := by
  have hanswer : ∀ (channel : ChannelRef) (msg1 : Pointer) (nonce : Digest) (gb : PublicKey)
      (sessionKey : SessionKey) (operatorReportData playerReportData : ReportData),
      wp (accounts operatorRoles operatorSpares) (Left rest)
        (answerSyn channel msg1 nonce gb sessionKey operatorReportData playerReportData) globals
        (holding rest (some channel.address) none false globals.stash [] false) := answerSyn_left hrest
  unfold mutualAttestation deriveSecrets
  repeat' with_reducible first
    | apply create_step
    | apply receive_step
    | apply digests_step (getReportData_within _ _ _)
    | apply digests_step (getSessionKey_within _ _ _)
    | apply teardown_step
    | apply free_step
    | apply get_step
    | apply shared_step
    | apply neutral_step
    | intro _
    | dsimp only
    | split
  all_goals first
    | rfl
    | exact True.intro
    | exact Ends.of_holding (by decide)
    | exact hanswer _ _ _ _ _ _ _

end Operator

section Player
open Player
variable {globals : Globals} {rest : Multiset Handle}

theorem drop_stash_step {α : Type} {channel message : Option Pointer} {stash : Stash}
    {allocations : List Bool} {unreported : Bool} {f : PUnit → Player.Code α} {post : α → Globals → Account → Prop}
    (hstash : globals.stash = stash) (hquote : stash.get.isSome)
    (h : wp (accounts playerRoles playerSpares) post (f ()) { globals with stash := {} }
      (holding rest channel message false {} allocations unreported)) :
    wp (accounts playerRoles playerSpares) post (dropStashedQuote >>= f) globals
      (holding rest channel message true stash allocations unreported) := by
  subst hstash
  obtain ⟨quote, hstored⟩ := Option.isSome_iff_exists.mp hquote
  have hstored : globals.stash.quote = some quote := stored_of_get hstored
  unfold dropStashedQuote
  rw [wp_bind, wp_bind, wp_get, hstored]
  exact drop_step hstored h

def LeftOperator (rest : Multiset Handle) (operator : Option Operator) (_ : Globals)
    (account : Account) : Prop :=
  Ends playerSpares rest (operator.map (·.channel.address)) account

theorem answerSynack_left (tcrypto : Tcrypto) (quotingEnclave : TargetInfo) (channel : ChannelRef)
    (nonce : Digest) (ga : PublicKey) (gab : SharedKey) (msg2 : ReceivedMessage) :
    wp (accounts playerRoles playerSpares) (LeftOperator rest)
      (answerSynack tcrypto quotingEnclave channel nonce ga gab msg2) globals
      (holding rest (some channel.address) (some msg2.address) false globals.stash [true] false) := by
  unfold answerSynack stashQuotes
  repeat' with_reducible first
    | apply digests_step (getReportData_within _ _ _)
    | apply digests_step (getSessionKey_within _ _ _)
    | apply report_step
    | apply quote_step
    | apply message_step
    | apply other_step
    | apply send_step
    | apply teardown_step
    | apply drop_stash_step
    | apply free_step
    | apply get_step
    | apply modify_step
    | intro _
    | dsimp only
    | split
  all_goals first
    | rfl
    | exact .inl ⟨rfl, rfl⟩
    | exact .inr rfl
    | exact Ends.of_holding (by decide)
    | exact Option.isSome_iff_exists.mpr ⟨_, ‹_›⟩

theorem playerAttestation_left (tcrypto : Tcrypto) (context : Pointer)
    (quotingEnclave : TargetInfo) (id : Nat) :
    wp (accounts playerRoles playerSpares) (LeftOperator rest)
      (Player.mutualAttestation tcrypto context quotingEnclave id) globals
      (holding rest none none false globals.stash [] false) := by
  have hanswer : ∀ (channel : ChannelRef) (nonce : Digest) (ga : PublicKey) (gab : SharedKey)
      (msg2 : ReceivedMessage), wp (accounts playerRoles playerSpares) (LeftOperator rest)
        (answerSynack tcrypto quotingEnclave channel nonce ga gab msg2) globals
        (holding rest (some channel.address) (some msg2.address) false globals.stash [true] false) :=
    answerSynack_left tcrypto quotingEnclave
  unfold Player.mutualAttestation
  repeat' with_reducible first
    | apply create_step
    | apply message_step
    | apply send_step
    | apply receive_step
    | apply teardown_step
    | apply free_step
    | apply fault_step
    | apply shared_step
    | apply neutral_step
    | intro _
    | dsimp only
    | split
  all_goals first
    | rfl
    | exact True.intro
    | exact Ends.of_holding (by decide)
    | exact hanswer _ _ _ _ _
    | exact fun hspared => hspared rfl

end Player

section Runs
variable {Callback σ : Type}

/-- Which of the allocations succeeded. -/
def allocationsIn (events : List (Event (Call Callback))) : List Bool :=
  events.flatMap fun
    | .answered (.malloc _) address => [Option.isSome address]
    | _ => []

/-- A report could not be created. -/
def unreportedIn (events : List (Event (Call Callback))) : Bool :=
  events.any fun
    | .answered (.sgxCreateReport _ _) report => Option.isNone report
    | _ => false

theorem observe_allocations (roles : List Role) (account : Account) (event : Event (Call Callback)) :
    (account.observe roles event).allocations = account.allocations ++ allocationsIn [event] ∧
      (account.observe roles event).unreported = (account.unreported || unreportedIn [event]) := by
  cases event with
  | issued c => simp [Account.observe, Account.issue, allocationsIn, unreportedIn]
  | answered c answer =>
    cases c with
    | malloc size =>
      simp only [Account.observe, Account.answer]
      split
      · simp [allocationsIn, unreportedIn]
      · simp [allocationsIn, unreportedIn]
    | _ => simp [Account.observe, Account.answer, allocationsIn, unreportedIn]

theorem foldl_allocations (roles : List Role) (account : Account)
    (events : List (Event (Call Callback))) :
    (events.foldl (Account.observe roles) account).allocations =
        account.allocations ++ allocationsIn events ∧
      (events.foldl (Account.observe roles) account).unreported =
        (account.unreported || unreportedIn events) := by
  induction events generalizing account with
  | nil => simp [allocationsIn, unreportedIn]
  | cons event events ih =>
    obtain ⟨hallocations, hunreported⟩ := observe_allocations roles account event
    obtain ⟨hrest, hrest'⟩ := ih (account.observe roles event)
    rw [List.foldl_cons, hrest, hrest', hallocations, hunreported]
    simp [allocationsIn, unreportedIn, Bool.or_assoc]

theorem accounts_observe (roles : List Role) (spares : List Bool → Bool → Prop) :
    (accounts roles spares : Monitor (Call Callback) σ Account).observe = Account.observe roles := by
  funext account event
  cases event with
  | issued c => rfl
  | answered c answer => rfl

variable {comp : Component (Call Callback) σ} (roles : List Role) (stashOf : comp.Op → Stash)
  (channelOf : comp.Ret → Option Pointer)

/-- The handles accounted for after attempts, one after the other. -/
def ledgerAfter (steps : List (Step comp)) : Ledger Handle :=
  steps.foldl (fun ledger step => (accountOf roles ledger (stashOf step.op) step.events).ledger) {}

/-- The channels in the objects that have been returned. -/
def handed (steps : List (Step comp)) : Multiset Handle :=
  ((steps.flatMap fun step => (step.result.bind channelOf).toList).map Handle.channel : List Handle)

/-- An attempt after others: what it destroys and uses is live, and once it has returned, only
channels that have been handed to the caller are. -/
structure Tidy (earlier : List (Step comp)) (step : Step comp) : Prop where
  clean : (accountOf roles (ledgerAfter roles stashOf earlier) (stashOf step.op) step.events).Clean
  balanced : step.result.isSome →
    (accountOf roles (ledgerAfter roles stashOf earlier) (stashOf step.op) step.events).ledger.live =
      handed channelOf (earlier ++ [step])

/-- No call has failed that the attempt does not survive. -/
def Spared (spares : List Bool → Bool → Prop) (step : Step comp) : Prop :=
  spares (allocationsIn step.events) (unreportedIn step.events)

variable {roles} {stashOf} {channelOf} {spares : List Bool → Bool → Prop} {init state : σ}
  {steps : List (Step comp)}

theorem handed_messages (address : Pointer) :
    Handle.message address ∉ handed channelOf steps := by
  simp [handed]

theorem handed_append {step : Step comp} {ret : comp.Ret} (hret : step.result = some ret) :
    handed channelOf (steps ++ [step]) = handles (handed channelOf steps) (channelOf ret) none := by
  rw [handed, List.flatMap_append, List.map_append, ← Multiset.coe_add, add_comm]
  cases hchannel : channelOf ret with
  | none => simp [hret, hchannel, handles, handed]
  | some address => simp [hret, hchannel, handles, handed]

variable (hattempt : ∀ (rest : Multiset Handle), (∀ address, Handle.message address ∉ rest) →
  ∀ op state, wp (accounts roles spares) (fun ret _ => Ends spares rest (channelOf ret))
    (comp.handle op) state (holding rest none none false (stashOf op) [] false))
include hattempt

theorem attempt_ends {step : Step comp} (valid : step.Valid) {ret : comp.Ret}
    (hret : step.result = some ret)
    (hledger : ledgerAfter roles stashOf steps = ⟨handed channelOf steps, 0⟩) :
    Ends spares (handed channelOf steps) (channelOf ret)
      (accountOf roles (ledgerAfter roles stashOf steps) (stashOf step.op) step.events) := by
  have hexec : Exec (comp.handle step.op) step.before step.events step.after (some ret) :=
    hret ▸ valid
  have hends := hexec.returned (hattempt (handed channelOf steps) handed_messages step.op step.before)
  rw [accounts_observe] at hends
  rw [hledger]
  exact hends

theorem attempt_waits {step : Step comp} (valid : step.Valid) (hwaiting : step.result = none)
    (hledger : ledgerAfter roles stashOf steps = ⟨handed channelOf steps, 0⟩)
    (hspared : Spared spares step) :
    (accountOf roles (ledgerAfter roles stashOf steps) (stashOf step.op) step.events).Clean := by
  have hexec : Exec (comp.handle step.op) step.before step.events step.after none :=
    hwaiting ▸ valid
  obtain ⟨before, β, c, hsplit, hsafe⟩ :=
    hexec.waiting_safe (hattempt (handed channelOf steps) handed_messages step.op step.before)
  rw [accounts_observe] at hsafe
  obtain ⟨hallocations, hunreported⟩ := foldl_allocations roles
    (holding (handed channelOf steps) none none false (stashOf step.op) [] false) before
  have hsame : allocationsIn step.events = allocationsIn before ∧
      unreportedIn step.events = unreportedIn before := by
    rw [hsplit]
    simp [allocationsIn, unreportedIn]
  have hclean : ((before.foldl (Account.observe roles)
      (holding (handed channelOf steps) none none false (stashOf step.op) [] false)).issue roles c).Clean := by
    apply hsafe
    rw [hallocations, hunreported]
    rw [Spared, hsame.1, hsame.2] at hspared
    exact hspared
  rw [hledger, hsplit, accountOf, List.foldl_append]
  exact hclean

/-- An attempt that has returned is tidy exactly if it was spared, and leaves the channels that
have been handed over. -/
theorem attempt_returned {step : Step comp} (valid : step.Valid) (finished : step.result.isSome)
    (hledger : ledgerAfter roles stashOf steps = ⟨handed channelOf steps, 0⟩) :
    (Spared spares step ∧ Tidy roles stashOf channelOf steps step ∧
      ledgerAfter roles stashOf (steps ++ [step]) = ⟨handed channelOf (steps ++ [step]), 0⟩) ∨
    ¬ Spared spares step ∧ ¬ Tidy roles stashOf channelOf steps step := by
  obtain ⟨ret, hret⟩ := Option.isSome_iff_exists.mp finished
  obtain ⟨hallocations, hunreported⟩ := foldl_allocations roles
    { ledger := ledgerAfter roles stashOf steps, stash := stashOf step.op } step.events
  have hspared : spares (accountOf roles (ledgerAfter roles stashOf steps) (stashOf step.op) step.events).allocations
      (accountOf roles (ledgerAfter roles stashOf steps) (stashOf step.op) step.events).unreported ↔ Spared spares step := by
    rw [accountOf, hallocations, hunreported, List.nil_append, Bool.false_or]
    rfl
  rcases attempt_ends hattempt valid hret hledger with ⟨hspares, hused, hlast⟩ | ⟨hspares, hexcess⟩
  · have hledger' : ledgerAfter roles stashOf (steps ++ [step]) = ⟨handed channelOf (steps ++ [step]), 0⟩ := by
      rw [ledgerAfter, List.foldl_append, handed_append hret]
      exact hlast
    refine .inl ⟨hspared.mp hspares, ⟨⟨hused, by rw [hlast]⟩, fun _ => ?_⟩, hledger'⟩
    rw [hlast, handed_append hret]
  · exact .inr ⟨fun h => hspares (hspared.mpr h), fun htidy => hexcess htidy.clean.2⟩

theorem run_tidy (run : Run comp init steps state)
    (h : (∀ step ∈ steps, Spared spares step) ∨ Throughout (Tidy roles stashOf channelOf) steps) :
    (∀ step ∈ steps, Spared spares step) ∧ Throughout (Tidy roles stashOf channelOf) steps ∧
      ledgerAfter roles stashOf steps = ⟨handed channelOf steps, 0⟩ := by
  induction run with
  | start => exact ⟨List.forall_mem_nil _, .nil, rfl⟩
  | @next steps step run valid finished ih =>
    simp only [List.forall_mem_append, List.forall_mem_singleton, Throughout.append_singleton] at h ⊢
    obtain ⟨hspared, htidy, hledger⟩ := ih (h.imp And.left And.left)
    rcases attempt_returned hattempt valid finished hledger with hgood | hbad
    · exact ⟨⟨hspared, hgood.1⟩, ⟨htidy, hgood.2.1⟩, hgood.2.2⟩
    · rcases h with h | h
      · exact absurd h.2 hbad.1
      · exact absurd h.2 hbad.2

theorem trace_tidy (trace : Trace comp init steps state) :
    ((∀ step ∈ steps, Spared spares step) → Throughout (Tidy roles stashOf channelOf) steps) ∧
      (Throughout (Tidy roles stashOf channelOf) steps →
        ∀ step ∈ steps, step.result.isSome → Spared spares step) := by
  cases trace with
  | resting run =>
    exact ⟨fun h => (run_tidy hattempt run (.inl h)).2.1,
      fun h step hstep _ => (run_tidy hattempt run (.inr h)).1 step hstep⟩
  | @inside steps step run valid waiting =>
    simp only [List.forall_mem_append, List.forall_mem_singleton, Throughout.append_singleton]
    constructor
    · intro h
      obtain ⟨_, htidy, hledger⟩ := run_tidy hattempt run (.inl h.1)
      refine ⟨htidy, attempt_waits hattempt valid waiting hledger h.2, fun hsome => ?_⟩
      rw [waiting] at hsome
      cases hsome
    · intro h
      refine ⟨fun other hother _ => (run_tidy hattempt run (.inr h.1)).1 other hother, fun hsome => ?_⟩
      rw [waiting] at hsome
      cases hsome

end Runs

section Attempts
variable (tcrypto : Tcrypto) (numPlayers : Nat)

/-- The operator's attempts. What happens to its globals in between is left open. -/
def operatorAttempts : Component (Call Operator.Callback) Operator.Globals where
  Op := Operator.Globals × Pointer
  Ret := Option Operator.Player
  handle op := do
    set op.1
    Operator.mutualAttestation tcrypto numPlayers op.2

/-- The player's attempts. -/
def playerAttempts : Component (Call Player.Callback) Player.Globals where
  Op := Player.Globals × Pointer × TargetInfo × Nat
  Ret := Option Player.Operator
  handle op := do
    set op.1
    Player.mutualAttestation tcrypto op.2.1 op.2.2.1 op.2.2.2

/-- What was stashed when the attempt began. -/
def operatorStash (op : Operator.Globals × Pointer) : Stash := op.1.stash

def playerStash (op : Player.Globals × Pointer × TargetInfo × Nat) : Stash := op.1.stash

def playerChannel (player : Option Operator.Player) : Option Pointer :=
  player.map (·.channel.address)

def operatorChannel (operator : Option Player.Operator) : Option Pointer :=
  operator.map (·.channel.address)

/-- Attempts that are all spared are tidy, and of tidy attempts all that have returned were. -/
theorem attestation_handles_accounted :
    (∀ (steps : List (Step (operatorAttempts tcrypto numPlayers))) (init last : Operator.Globals),
      Trace (operatorAttempts tcrypto numPlayers) init steps last →
        ((∀ step ∈ steps, Spared operatorSpares step) →
          Throughout (Tidy operatorRoles operatorStash playerChannel) steps) ∧
        (Throughout (Tidy operatorRoles operatorStash playerChannel) steps →
          ∀ step ∈ steps, step.result.isSome → Spared operatorSpares step)) ∧
    ∀ (steps : List (Step (playerAttempts tcrypto))) (init last : Player.Globals),
      Trace (playerAttempts tcrypto) init steps last →
        ((∀ step ∈ steps, Spared playerSpares step) →
          Throughout (Tidy playerRoles playerStash operatorChannel) steps) ∧
        (Throughout (Tidy playerRoles playerStash operatorChannel) steps →
          ∀ step ∈ steps, step.result.isSome → Spared playerSpares step) := by
  constructor
  · intro steps init last trace
    refine trace_tidy (fun rest hrest op state => ?_) trace
    exact mutualAttestation_left hrest tcrypto numPlayers op.2
  · intro steps init last trace
    refine trace_tidy (fun rest hrest op state => ?_) trace
    exact playerAttestation_left tcrypto op.2.1 op.2.2.1 op.2.2.2

end Attempts

section Host

def operatorSteps : List (Step (operatorAttempts zeroDeployment.tcrypto 3)) :=
  playRun (operatorAttempts zeroDeployment.tcrypto 3) Operator.contractHost 0
    (Operator.initial zeroDeployment) [(Operator.initial zeroDeployment, (1 : Nat))]

def playerSteps : List (Step (playerAttempts zeroDeployment.tcrypto)) :=
  playRun (playerAttempts zeroDeployment.tcrypto) Player.contractHost 0 Player.initial
    [(Player.initial, (0 : Nat), FixedBytes.zero 512, (1 : Nat))]

/-- An attempt on each side in which nothing fails. -/
theorem attestation_handles_accounted_played :
    Throughout (Tidy operatorRoles operatorStash playerChannel) operatorSteps ∧
      Throughout (Tidy playerRoles playerStash operatorChannel) playerSteps := by
  have hoperator : ∀ step ∈ operatorSteps,
      operatorSpares (allocationsIn step.events) (unreportedIn step.events) := by decide +kernel
  have hplayer : ∀ step ∈ playerSteps,
      playerSpares (allocationsIn step.events) (unreportedIn step.events) := by decide +kernel
  have hrun := run_playRun (operatorAttempts zeroDeployment.tcrypto 3) Operator.contractHost
    (Operator.initial zeroDeployment) [(Operator.initial zeroDeployment, (1 : Nat))]
    (by decide +kernel)
  have hrun' := run_playRun (playerAttempts zeroDeployment.tcrypto) Player.contractHost
    Player.initial [(Player.initial, (0 : Nat), FixedBytes.zero 512, (1 : Nat))] (by decide +kernel)
  constructor
  · exact ((attestation_handles_accounted _ _).1 _ _ _ (.resting hrun)).1 hoperator
  · exact ((attestation_handles_accounted _ 3).2 _ _ _ (.resting hrun')).1 hplayer

/-- The platform creates no report. -/
def reportlessHost {β : Type} (time : Nat) : Call Operator.Callback β → Option β
  | .sgxCreateReport _ _ => some none
  | c => Operator.contractHost time c

def reportlessStep : Step (operatorAttempts zeroDeployment.tcrypto 3) :=
  playStep (operatorAttempts zeroDeployment.tcrypto 3) reportlessHost 0
    (Operator.initial zeroDeployment) (Operator.initial zeroDeployment, (1 : Nat))

/-- The host of the player has no memory. -/
def memorylessHost {β : Type} (time : Nat) : Call Player.Callback β → Option β
  | .malloc _ => some none
  | c => Player.contractHost time c

def memorylessStep : Step (playerAttempts zeroDeployment.tcrypto) :=
  playStep (playerAttempts zeroDeployment.tcrypto) memorylessHost 0 Player.initial
    (Player.initial, (0 : Nat), FixedBytes.zero 512, (1 : Nat))

/-- Without a report the operator destroys the SYN twice; without memory the player uses `NULL`. -/
theorem attestation_handles_mishandled :
    (¬ ∀ (tcrypto : Tcrypto) (numPlayers : Nat)
      (steps : List (Step (operatorAttempts tcrypto numPlayers))) (init last : Operator.Globals),
      Trace (operatorAttempts tcrypto numPlayers) init steps last →
        Throughout (Tidy operatorRoles operatorStash playerChannel) steps) ∧
    ¬ ∀ (tcrypto : Tcrypto) (steps : List (Step (playerAttempts tcrypto)))
      (init last : Player.Globals), Trace (playerAttempts tcrypto) init steps last →
        Throughout (Tidy playerRoles playerStash operatorChannel) steps := by
  have hexcess : (accountOf operatorRoles {} {} reportlessStep.events).ledger.excess ≠ 0 := by
    decide +kernel
  have hmisused : (accountOf playerRoles {} {} memorylessStep.events).misused = true := by
    decide +kernel
  constructor
  · intro hall
    have htrace : Trace (operatorAttempts zeroDeployment.tcrypto 3) (Operator.initial zeroDeployment)
        ([] ++ [reportlessStep]) reportlessStep.after :=
      .resting (.next .start (playStep_valid _ reportlessHost 0 _ _) (by decide +kernel))
    exact hexcess ((hall _ _ _ _ _ htrace [] reportlessStep [] rfl).clean.2)
  · intro hall
    have htrace : Trace (playerAttempts zeroDeployment.tcrypto) Player.initial
        ([] ++ [memorylessStep]) memorylessStep.after :=
      .inside .start (playStep_valid _ memorylessHost 0 _ _) (by rfl)
    have hclean := (hall _ _ _ _ htrace [] memorylessStep [] rfl).clean.1
    exact Bool.noConfusion (hclean.symm.trans hmisused)

end Host

end Auntie.Guarantees.AttestationHandles
