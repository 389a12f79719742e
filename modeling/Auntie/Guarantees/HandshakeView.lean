import Auntie.Source.Operator.Players
import Auntie.Source.Player.Setup

/-!
# What a handshake determines

Each enclave derives the report data it binds, the report data it expects and the session key
from its own share and nonce and those it received. A view keeps the first of each from a
trace; a specification of either handshake says that all its calls agree with the view.
-/

namespace Auntie.Guarantees.KeyAgreement
open Auntie.Source Auntie.Interaction
open Blocks (Digest)

/-- What an enclave holds after the exchange of the shares. `operatorNonce` is the nonce the
operator's report is to bind: the player chose it. -/
structure Handshake where
  ga : PublicKey
  gb : PublicKey
  operatorNonce : Digest
  playerNonce : Digest
  gab : SharedKey
  deriving DecidableEq

namespace Handshake
variable (tcrypto : Tcrypto) (handshake : Handshake)

def operatorReportData : ReportData :=
  reportDataOf tcrypto handshake.operatorNonce handshake.ga handshake.gb

def playerReportData : ReportData :=
  reportDataOf tcrypto handshake.playerNonce handshake.ga handshake.gb

def sessionKey : SessionKey :=
  sessionKeyOf tcrypto handshake.ga handshake.gb handshake.gab

/-- The byte strings hashed into the two report data. -/
def hashed : List Bytes :=
  [handshake.operatorNonce.val ++ handshake.ga.val ++ handshake.gb.val,
    handshake.playerNonce.val ++ handshake.ga.val ++ handshake.gb.val]

end Handshake

section View

/-- What an enclave was answered in its handshake, and sent: each the first of its kind. -/
structure View where
  nonce : Option Digest := none
  keyPair : Option (PrivateKey × PublicKey) := none
  sent : Option Message := none
  received : Option ReceivedMessage := none
  shared : Option SharedKey := none

namespace View
variable {Callback β : Type}

def issued (view : View) : Call Callback β → View
  | .auntieMsgSend msg _ => { view with sent := view.sent.or (some msg) }
  | _ => view

def answered (view : View) : Call Callback β → β → View
  | .sgxReadRand size, answer =>
    if h : size = 32 then { view with nonce := view.nonce.or (h ▸ answer : Option (FixedBytes 32)) }
    else view
  | .sgxEcc256CreateKeyPair, answer => { view with keyPair := view.keyPair.or answer }
  | .auntieMsgReceive _, answer => { view with received := view.received.or answer }
  | .sgxEcc256ComputeSharedDhkey _ _, answer => { view with shared := view.shared.or answer }
  | _, _ => view

def observe (view : View) : Event (Call Callback) → View
  | .issued c => view.issued c
  | .answered c answer => view.answered c answer

end View

/-- What one side sends and reads in the exchange. -/
structure Role where
  /-- The share and the nonce in the message of the other side. -/
  peer : ReceivedMessage → PublicKey × Digest
  accepts : ReceivedMessage → Prop
  /-- From the own share and nonce and those of the other side. -/
  handshake : PublicKey × Digest → PublicKey × Digest → SharedKey → Handshake
  /-- The own share and nonce as they are sent. -/
  hello : PublicKey × Digest → Message → Prop
  bound : Tcrypto → Handshake → ReportData
  expected : Tcrypto → Handshake → ReportData

def player : Role where
  peer msg := ((Synack.decode msg).gb, (Synack.decode msg).nonce)
  accepts msg := Synack.sizeof ≤ msg.payload.length
  handshake own peer gab := ⟨own.1, peer.1, own.2, peer.2, gab⟩
  hello own msg := ∃ id, msg = .ofPayload msgAttestationSyn (Syn.encode ⟨own.1, id, own.2⟩)
  bound tcrypto handshake := handshake.playerReportData tcrypto
  expected tcrypto handshake := handshake.operatorReportData tcrypto

def operator : Role where
  peer msg := ((Syn.decode msg).ga, (Syn.decode msg).nonce)
  accepts msg := msg.payload.length = Syn.sizeof
  handshake own peer gab := ⟨peer.1, own.1, peer.2, own.2, gab⟩
  hello own msg :=
    ∃ quote, msg = .ofPayload msgAttestationSynack (Synack.encode ⟨own.1, own.2, quote⟩)
  bound tcrypto handshake := handshake.operatorReportData tcrypto
  expected tcrypto handshake := handshake.playerReportData tcrypto

def View.handshake (role : Role) (view : View) : Option Handshake := do
  let (_, share) ← view.keyPair
  let nonce ← view.nonce
  let msg ← view.received
  let gab ← view.shared
  return role.handshake (share, nonce) (role.peer msg) gab

theorem View.handshake_eq_some {role : Role} {view : View} {handshake : Handshake} :
    view.handshake role = some handshake ↔ ∃ x share nonce msg gab,
      view.keyPair = some (x, share) ∧ view.nonce = some nonce ∧ view.received = some msg ∧
      view.shared = some gab ∧ handshake = role.handshake (share, nonce) (role.peer msg) gab := by
  simp only [View.handshake, Option.bind_eq_bind, Option.bind_eq_some_iff, Option.pure_def,
    Option.some.injEq, Prod.exists]
  constructor
  · rintro ⟨x, share, hkeyPair, nonce, hnonce, msg, hreceived, gab, hshared, rfl⟩
    exact ⟨x, share, nonce, msg, gab, hkeyPair, hnonce, hreceived, hshared, rfl⟩
  · rintro ⟨x, share, nonce, msg, gab, hkeyPair, hnonce, hreceived, hshared, rfl⟩
    exact ⟨x, share, hkeyPair, nonce, hnonce, msg, hreceived, gab, hshared, rfl⟩

theorem received_of_handshake {role : Role} {view : View} {handshake : Handshake}
    (h : view.handshake role = some handshake) : view.received.isSome := by
  obtain ⟨_, _, _, msg, _, _, _, hreceived, _⟩ := View.handshake_eq_some.mp h
  rw [hreceived]
  rfl

end View

section Follows
variable {Callback σ : Type} (tcrypto : Tcrypto) (role : Role)

/-- A channel is encrypted under the session key of the handshake. -/
def KeyedBy (view : View) (channel : ChannelRef) : Prop :=
  ∀ key, channel.sessionKey = some key →
    ∃ handshake, view.handshake role = some handshake ∧ key = handshake.sessionKey tcrypto

/-- What the calls of one side have to be. -/
def follows : Monitor (Call Callback) σ View where
  issued view c := view.issued c
  answered view c answer := view.answered c answer
  safe _ view
    | .sgxEcc256ComputeSharedDhkey own peer => ∃ share msg, view.keyPair = some (own, share) ∧
        view.received = some msg ∧ role.accepts msg ∧ (role.peer msg).1 = peer
    | .sgxCreateReport _ data => ∃ handshake, view.handshake role = some handshake ∧
        data = role.bound tcrypto handshake
    | .auntieMsgSend msg channel => KeyedBy tcrypto role view channel ∧
        (view.sent = none → ∃ x share nonce, view.keyPair = some (x, share) ∧
          view.nonce = some nonce ∧ role.hello (share, nonce) msg)
    | .auntieMsgReceive channel | .channelTeardown channel => KeyedBy tcrypto role view channel
    | _ => True

/-- What a completed handshake returns of report data and channel. -/
def Returned (view : View) (reportData : ReportData) (channel : ChannelRef) : Prop :=
  ∃ handshake, view.handshake role = some handshake ∧
    reportData = role.expected tcrypto handshake ∧
    channel.sessionKey = some (handshake.sessionKey tcrypto)

end Follows

section Rules
variable {Callback σ β : Type} {tcrypto : Tcrypto} {role : Role} {view : View} {state : σ}
  {channel : ChannelRef}

/-- The calls that are not part of the exchange. -/
def Silent : Call Callback β → Prop
  | .sgxReadRand _ | .sgxEcc256CreateKeyPair | .sgxEcc256ComputeSharedDhkey _ _ => False
  | .sgxCreateReport _ _ | .auntieMsgSend _ _ | .auntieMsgReceive _ | .channelTeardown _ => False
  | _ => True

theorem wp_silent {c : Call Callback β} (h : Silent c) {post : β → σ → View → Prop}
    (hpost : ∀ answer, post answer state view) :
    wp (follows tcrypto role) post (issue c) state view := by
  cases c with
  | sgxReadRand | sgxEcc256CreateKeyPair | sgxEcc256ComputeSharedDhkey => cases h
  | sgxCreateReport | auntieMsgSend | auntieMsgReceive | channelTeardown => cases h
  | _ => exact ⟨trivial, hpost⟩

theorem wp_follows_teardown {post : Unit → σ → View → Prop} :
    wp (follows tcrypto role) post (issue (.channelTeardown channel : Call Callback Unit)) state
      view ↔ KeyedBy tcrypto role view channel ∧ post () state view :=
  and_congr Iff.rfl ⟨fun h => h (), fun h _ => h⟩

theorem wp_follows_receive {post : Option ReceivedMessage → σ → View → Prop} :
    wp (follows tcrypto role) post (issue (.auntieMsgReceive channel : Call Callback _)) state
      view ↔ KeyedBy tcrypto role view channel ∧
        ∀ msg, post msg state { view with received := view.received.or msg } := Iff.rfl

theorem wp_follows_send {msg : Message} {post : Int32 → σ → View → Prop} :
    wp (follows tcrypto role) post (issue (.auntieMsgSend msg channel : Call Callback _)) state
      view ↔ KeyedBy tcrypto role view channel ∧
        (view.sent = none → ∃ x share nonce, view.keyPair = some (x, share) ∧
          view.nonce = some nonce ∧ role.hello (share, nonce) msg) ∧
        ∀ ret, post ret state { view with sent := view.sent.or (some msg) } := and_assoc

theorem wp_follows_report {target : TargetInfo} {data : ReportData}
    {post : Option Report → σ → View → Prop} :
    wp (follows tcrypto role) post (issue (.sgxCreateReport target data : Call Callback _)) state
      view ↔ (∃ handshake, view.handshake role = some handshake ∧
        data = role.bound tcrypto handshake) ∧ ∀ report, post report state view := Iff.rfl

theorem wp_follows_random {post : Option Digest → σ → View → Prop} :
    wp (follows tcrypto role) post (issue (.sgxReadRand 32 : Call Callback _)) state view ↔
      ∀ nonce, post nonce state { view with nonce := view.nonce.or nonce } :=
  iff_of_eq (true_and _)

theorem wp_follows_keyPair {post : Option (PrivateKey × PublicKey) → σ → View → Prop} :
    wp (follows tcrypto role) post (issue (.sgxEcc256CreateKeyPair : Call Callback _)) state view ↔
      ∀ keyPair, post keyPair state { view with keyPair := view.keyPair.or keyPair } :=
  iff_of_eq (true_and _)

theorem wp_follows_shared {own : PrivateKey} {peer : PublicKey}
    {post : Option SharedKey → σ → View → Prop} :
    wp (follows tcrypto role) post (issue (.sgxEcc256ComputeSharedDhkey own peer : Call Callback _))
      state view ↔ (∃ share msg, view.keyPair = some (own, share) ∧ view.received = some msg ∧
        role.accepts msg ∧ (role.peer msg).1 = peer) ∧
        ∀ gab, post gab state { view with shared := view.shared.or gab } := Iff.rfl

/-- The messages after the first of their kind are not part of the exchange. -/
theorem wp_later_send {msg : Message} {post : Int32 → σ → View → Prop} (hsent : view.sent.isSome)
    (hkeyed : KeyedBy tcrypto role view channel) (hpost : ∀ ret, post ret state view) :
    wp (follows tcrypto role) post (issue (.auntieMsgSend msg channel : Call Callback _)) state
      view := by
  obtain ⟨first, hfirst⟩ := Option.isSome_iff_exists.mp hsent
  have hview : { view with sent := view.sent.or (some msg) } = view := by
    rw [hfirst, Option.some_or, ← hfirst]
  refine wp_follows_send.mpr ⟨hkeyed, ?_, fun ret => ?_⟩
  · rw [hfirst]
    simp
  · rw [hview]
    exact hpost ret

theorem wp_later_receive {post : Option ReceivedMessage → σ → View → Prop}
    (hreceived : view.received.isSome) (hkeyed : KeyedBy tcrypto role view channel)
    (hpost : ∀ msg, post msg state view) :
    wp (follows tcrypto role) post (issue (.auntieMsgReceive channel : Call Callback _)) state
      view := by
  obtain ⟨first, hfirst⟩ := Option.isSome_iff_exists.mp hreceived
  refine wp_follows_receive.mpr ⟨hkeyed, fun msg => ?_⟩
  have hview : { view with received := view.received.or msg } = view := by
    rw [hfirst, Option.some_or, ← hfirst]
  rw [hview]
  exact hpost msg

theorem keyedBy_plain (h : channel.sessionKey = none) : KeyedBy tcrypto role view channel := by
  intro key hkey
  rw [h] at hkey
  cases hkey

theorem keyedBy_handshake {handshake : Handshake} (h : view.handshake role = some handshake)
    (hkey : channel.sessionKey = some (handshake.sessionKey tcrypto)) :
    KeyedBy tcrypto role view channel := by
  intro key hkey'
  rw [hkey] at hkey'
  cases hkey'
  exact ⟨handshake, h, rfl⟩

theorem getSessionKey_spec {ga gb : PublicKey} {gab : SharedKey}
    {post : Except Int32 SessionKey → σ → View → Prop} (herror : ∀ e, post (.error e) state view)
    (hok : post (.ok (sessionKeyOf tcrypto ga gb gab)) state view) :
    wp (follows tcrypto role) post (getSessionKey tcrypto ga gb gab : Code Callback σ _) state
      view := by
  simp only [getSessionKey, wp_bind, wp_ite, wp_pure]
  refine wp_silent (by trivial) fun cmac => ⟨fun _ => herror _, fun _ => ?_⟩
  exact wp_silent (by trivial) fun init => ⟨fun _ => herror _, fun _ => hok⟩

theorem getReportData_spec {nonce : Digest} {ga gb : PublicKey}
    {post : Except Int32 ReportData → σ → View → Prop} (herror : ∀ e, post (.error e) state view)
    (hok : post (.ok (reportDataOf tcrypto nonce ga gb)) state view) :
    wp (follows tcrypto role) post (getReportData tcrypto nonce ga gb : Code Callback σ _) state
      view := by
  simp only [getReportData, wp_bind, wp_ite, wp_pure]
  exact wp_silent (by trivial) fun init => ⟨fun _ => herror _, fun _ => hok⟩

/-- An error path: the channel is torn down. -/
theorem tornDown_spec {α : Type} {rest : Code Callback σ α} {post : α → σ → View → Prop}
    (hkeyed : KeyedBy tcrypto role view channel) (hrest : wp (follows tcrypto role) post rest state view) :
    wp (follows tcrypto role) post (do
      issue (.channelTeardown channel)
      rest) state view := by
  simp only [wp_bind, wp_follows_teardown]
  exact ⟨hkeyed, hrest⟩

/-- A call outside the exchange on an error path. -/
theorem released_spec {α : Type} {c : Call Callback Unit} {rest : Code Callback σ α}
    {post : α → σ → View → Prop} (h : Silent c)
    (hrest : wp (follows tcrypto role) post rest state view) :
    wp (follows tcrypto role) post (do
      issue c
      rest) state view :=
  wp_bind.mpr (wp_silent h fun _ => hrest)

end Rules

section Player
variable {tcrypto : Tcrypto}

theorem dropStashedQuote_spec {role : Role} {globals : Player.Globals} {view : View}
    {post : Unit → Player.Globals → View → Prop} (hpost : ∀ last, post () last view) :
    wp (follows tcrypto role) post Player.dropStashedQuote globals view := by
  simp only [Player.dropStashedQuote, wp_bind, wp_get]
  split
  · exact released_spec (by trivial) (hpost _)
  · exact hpost _

theorem answerSynack_spec {quotingEnclave : TargetInfo} {channel : ChannelRef} {nonce : Digest}
    {ga : PublicKey} {gab : SharedKey} {msg2 : ReceivedMessage} {view : View}
    {globals : Player.Globals} (hplain : channel.sessionKey = none)
    (hview : view.handshake player = some (player.handshake (ga, nonce) (player.peer msg2) gab))
    (hsent : view.sent.isSome) :
    wp (follows tcrypto player)
      (fun result _ view => ∀ operator, result = some operator →
        Returned tcrypto player view operator.reportData operator.channel)
      (Player.answerSynack tcrypto quotingEnclave channel nonce ga gab msg2) globals view := by
  have hplain' : KeyedBy tcrypto player view channel := keyedBy_plain hplain
  have hkeyed : KeyedBy tcrypto player view (channel.encrypt (sessionKeyOf tcrypto ga (Synack.decode msg2).gb gab)) := keyedBy_handshake hview rfl
  unfold Player.answerSynack
  simp only [wp_bind]
  refine wp_silent (by trivial) fun operatorQuote => ?_
  cases operatorQuote with
  | none => exact tornDown_spec hplain' (released_spec (by trivial) (by simp))
  | some operatorQuote =>
    refine wp_bind.mpr ?_
    refine getSessionKey_spec (fun _ => tornDown_spec hplain' (released_spec (by trivial) (by simp))) ?_
    simp only [wp_bind]
    refine getReportData_spec (fun _ => tornDown_spec hkeyed (released_spec (by trivial) (by simp))) ?_
    simp only [wp_bind]
    refine getReportData_spec (fun _ => released_spec (by trivial) (tornDown_spec hkeyed (by simp))) ?_
    simp only [wp_bind]
    refine wp_silent (by trivial) fun _ => ?_
    simp only [wp_follows_report]
    refine ⟨⟨_, hview, rfl⟩, fun report => ?_⟩
    cases report with
    | none => exact tornDown_spec hkeyed (by simp)
    | some report =>
      simp only [wp_bind, Player.stashQuotes, wp_modify, wp_ite, wp_get]
      refine wp_silent (by trivial) fun answer => ⟨fun _ => tornDown_spec hkeyed (by simp), fun _ => ?_⟩
      split
      · simp only [wp_bind]
        refine wp_silent (by trivial) fun msg3 => ?_
        cases msg3 with
        | none =>
          refine tornDown_spec hkeyed (wp_bind.mpr ?_)
          exact dropStashedQuote_spec fun _ => by simp
        | some msg3 =>
          simp only [wp_bind]
          refine dropStashedQuote_spec fun _ => ?_
          refine wp_later_send hsent hkeyed fun ret => ?_
          refine wp_silent (by trivial) fun _ => ?_
          refine wp_ite.mpr ⟨fun _ => tornDown_spec hkeyed (by simp), fun _ => ?_⟩
          refine wp_bind.mpr ?_
          refine wp_silent (by trivial) fun struct => ?_
          cases struct with
          | none => exact tornDown_spec hkeyed (by simp)
          | some struct =>
            intro operator hoperator
            cases hoperator
            exact ⟨_, hview, rfl, rfl⟩
      · exact tornDown_spec hkeyed (by simp)

theorem player_spec {context : Pointer} {quotingEnclave : TargetInfo} {id : Nat}
    {globals : Player.Globals} :
    wp (follows tcrypto player)
      (fun result _ view => ∀ operator, result = some operator →
        Returned tcrypto player view operator.reportData operator.channel)
      (Player.mutualAttestation tcrypto context quotingEnclave id) globals {} := by
  have hplain : ∀ {struct : Pointer} {view : View},
      KeyedBy tcrypto player view ((ChannelRef.create struct).assignId 0) := keyedBy_plain rfl
  unfold Player.mutualAttestation
  simp only [wp_bind, wp_follows_random]
  intro nonce
  cases nonce with
  | none => simp
  | some nonce =>
    simp only [wp_bind]
    refine wp_silent (by trivial) fun struct => ?_
    cases struct with
    | none => simp
    | some struct =>
      simp only [wp_bind, wp_ite]
      refine wp_silent (by trivial) fun opened => ⟨fun _ => tornDown_spec hplain (by simp), fun _ => ?_⟩
      simp only [wp_follows_keyPair]
      intro keyPair
      cases keyPair with
      | none => exact released_spec (by trivial) (tornDown_spec hplain (by simp))
      | some keyPair =>
        obtain ⟨a, ga⟩ := keyPair
        simp only [wp_bind]
        refine wp_silent (by trivial) fun msg1 => ?_
        cases msg1 with
        | none =>
          refine released_spec (by trivial) (tornDown_spec hplain ?_)
          exact wp_fault.mpr trivial
        | some msg1 =>
          simp only [wp_bind, wp_follows_send, wp_ite]
          refine ⟨hplain, fun _ => ⟨a, ga, nonce, rfl, rfl, id, rfl⟩, fun ret => ?_⟩
          refine wp_silent (by trivial) fun _ => ⟨fun _ => ?_, fun _ => ?_⟩
          · exact wp_silent (by trivial) fun _ => tornDown_spec hplain (by simp)
          · refine wp_follows_receive.mpr ⟨hplain, fun msg2 => ?_⟩
            cases msg2 with
            | none => exact released_spec (by trivial) (tornDown_spec hplain (by simp))
            | some msg2 =>
              refine wp_ite.mpr ⟨fun _ => ?_, fun hchecked => ?_⟩
              · exact released_spec (by trivial)
                  (tornDown_spec hplain (released_spec (by trivial) (by simp)))
              · have haccepted : player.accepts msg2 :=
                  Nat.not_lt.mp fun hshort => hchecked (Or.inr hshort)
                simp only [wp_bind, wp_follows_shared]
                refine ⟨⟨ga, msg2, rfl, rfl, haccepted, rfl⟩, fun gab => wp_silent (by trivial) fun _ => ?_⟩
                cases gab with
                | none => exact tornDown_spec hplain (released_spec (by trivial) (by simp))
                | some gab => exact answerSynack_spec rfl rfl rfl

end Player

section Operator
variable {tcrypto : Tcrypto}

theorem operator_dropStashedQuote_spec {role : Role} {globals : Operator.Globals} {view : View}
    {post : Unit → Operator.Globals → View → Prop} (hpost : ∀ last, post () last view) :
    wp (follows tcrypto role) post Operator.dropStashedQuote globals view := by
  simp only [Operator.dropStashedQuote, wp_bind, wp_get]
  split
  · exact released_spec (by trivial) (hpost _)
  · exact hpost _

theorem receiveAck_spec {channel : ChannelRef} {handshake : Handshake} {view : View}
    {globals : Operator.Globals} (hview : view.handshake operator = some handshake)
    (hkey : channel.sessionKey = some (handshake.sessionKey tcrypto)) :
    wp (follows tcrypto operator)
      (fun result _ view => ∀ player, result = some player →
        Returned tcrypto operator view player.reportData player.channel)
      (Operator.receiveAck channel (handshake.playerReportData tcrypto)) globals view := by
  have hkeyed : KeyedBy tcrypto operator view channel := keyedBy_handshake hview hkey
  have hreceived := received_of_handshake hview
  unfold Operator.receiveAck
  simp only [wp_bind]
  refine wp_later_receive hreceived hkeyed fun msg3 => ?_
  cases msg3 with
  | none => exact tornDown_spec hkeyed (by simp)
  | some msg3 =>
    refine wp_ite.mpr ⟨fun _ => tornDown_spec hkeyed (released_spec (by trivial) (by simp)), fun _ => ?_⟩
    simp only [wp_bind]
    refine wp_silent (by trivial) fun playerQuote => ?_
    cases playerQuote with
    | none => exact tornDown_spec hkeyed (released_spec (by trivial) (by simp))
    | some playerQuote =>
      simp only [wp_bind]
      refine wp_silent (by trivial) fun _ => wp_silent (by trivial) fun struct => ?_
      cases struct with
      | none => exact tornDown_spec hkeyed (released_spec (by trivial) (by simp))
      | some struct =>
        intro player hplayer
        cases hplayer
        exact ⟨handshake, hview, rfl, hkey⟩

theorem answerSyn_spec {channel : ChannelRef} {msg1 : Pointer} {nonce : Digest} {b : PrivateKey}
    {gb : PublicKey} {handshake : Handshake} {view : View} {globals : Operator.Globals}
    (hplain : channel.sessionKey = none) (hview : view.handshake operator = some handshake)
    (hkeyPair : view.keyPair = some (b, gb)) (hnonce : view.nonce = some nonce) :
    wp (follows tcrypto operator)
      (fun result _ view => ∀ player, result = some player →
        Returned tcrypto operator view player.reportData player.channel)
      (Operator.answerSyn channel msg1 nonce gb (handshake.sessionKey tcrypto)
        (handshake.operatorReportData tcrypto) (handshake.playerReportData tcrypto))
      globals view := by
  have hkeyed : ∀ {view}, KeyedBy tcrypto operator view channel := keyedBy_plain hplain
  unfold Operator.answerSyn
  simp only [wp_bind, wp_get, wp_follows_report]
  refine ⟨⟨handshake, hview, rfl⟩, fun report => ?_⟩
  cases report with
  | none => exact tornDown_spec hkeyed (released_spec (by trivial) (by simp))
  | some report =>
    simp only [wp_bind, Operator.stashQuotes, wp_modify, wp_ite, wp_get]
    refine wp_silent (by trivial) fun answer => ⟨fun _ => tornDown_spec hkeyed (by simp), fun _ => ?_⟩
    split
    · rename_i quote hquote
      simp only [wp_bind]
      refine wp_silent (by trivial) fun msg2 => ?_
      cases msg2 with
      | none =>
        refine tornDown_spec hkeyed (wp_bind.mpr ?_)
        exact operator_dropStashedQuote_spec fun _ => by simp
      | some msg2 =>
        simp only [wp_bind]
        refine operator_dropStashedQuote_spec fun _ => wp_follows_send.mpr ⟨hkeyed, fun _ => ?_, fun ret => ?_⟩
        · exact ⟨b, gb, nonce, hkeyPair, hnonce, quote.contents, rfl⟩
        · refine wp_silent (by trivial) fun _ => ?_
          refine wp_ite.mpr ⟨fun _ => tornDown_spec hkeyed (by simp), fun _ => ?_⟩
          exact receiveAck_spec hview rfl
    · exact tornDown_spec hkeyed (by simp)

theorem deriveSecrets_spec {channel : ChannelRef} {msg1 : ReceivedMessage} {nonce : Digest}
    {b : PrivateKey} {gb : PublicKey} {gab : SharedKey} {view : View} {globals : Operator.Globals}
    (hplain : channel.sessionKey = none)
    (hview : view.handshake operator =
      some (operator.handshake (gb, nonce) (operator.peer msg1) gab))
    (hkeyPair : view.keyPair = some (b, gb)) (hnonce : view.nonce = some nonce) :
    wp (follows tcrypto operator)
      (fun result _ view => ∀ player, result = some player →
        Returned tcrypto operator view player.reportData player.channel)
      (Operator.deriveSecrets tcrypto channel msg1 nonce gb gab) globals view := by
  have hkeyed : KeyedBy tcrypto operator view channel := keyedBy_plain hplain
  unfold Operator.deriveSecrets
  refine wp_bind.mpr ?_
  refine getSessionKey_spec (fun _ => tornDown_spec hkeyed (released_spec (by trivial) (by simp))) ?_
  refine wp_bind.mpr ?_
  refine getReportData_spec (fun _ => tornDown_spec hkeyed (released_spec (by trivial) (by simp))) ?_
  refine wp_bind.mpr ?_
  refine getReportData_spec (fun _ => released_spec (by trivial) (tornDown_spec hkeyed (by simp))) ?_
  refine released_spec (by trivial) ?_
  exact answerSyn_spec hplain hview hkeyPair hnonce

theorem operator_spec {numPlayers : Nat} {context : Pointer} {globals : Operator.Globals} :
    wp (follows tcrypto operator)
      (fun result _ view => ∀ player, result = some player →
        Returned tcrypto operator view player.reportData player.channel)
      (Operator.mutualAttestation tcrypto numPlayers context) globals {} := by
  have hplain : ∀ {struct : Pointer} {view : View},
      KeyedBy tcrypto operator view (ChannelRef.create struct) := keyedBy_plain rfl
  have hassigned : ∀ {struct : Pointer} {id : Nat} {view : View},
      KeyedBy tcrypto operator view ((ChannelRef.create struct).assignId id) := keyedBy_plain rfl
  unfold Operator.mutualAttestation
  simp only [wp_bind, wp_follows_random]
  intro nonce
  cases nonce with
  | none => simp
  | some nonce =>
    refine wp_bind.mpr (wp_silent (by trivial) fun struct => ?_)
    cases struct with
    | none => simp
    | some struct =>
      refine wp_bind.mpr (wp_follows_receive.mpr ⟨hplain, fun msg1 => ?_⟩)
      cases msg1 with
      | none => exact tornDown_spec hplain (by simp)
      | some msg1 =>
        simp only [wp_ite, wp_bind, wp_get]
        refine ⟨fun _ => tornDown_spec hplain (released_spec (by trivial) (by simp)), fun hchecked => ?_⟩
        have haccepted : operator.accepts msg1 :=
          not_not.mp fun hlength => hchecked (Or.inr hlength)
        refine ⟨fun _ => tornDown_spec hplain (released_spec (by trivial) (by simp)), fun _ => ?_⟩
        refine wp_silent (by trivial) fun opened => ⟨fun _ => ?_, fun _ => ?_⟩
        · exact tornDown_spec hassigned (released_spec (by trivial) (by simp))
        · refine wp_follows_keyPair.mpr fun keyPair => ?_
          cases keyPair with
          | none =>
            exact released_spec (by trivial)
              (tornDown_spec hassigned (released_spec (by trivial) (by simp)))
          | some keyPair =>
            obtain ⟨b, gb⟩ := keyPair
            simp only [wp_bind, wp_follows_shared]
            refine ⟨⟨gb, msg1, rfl, rfl, haccepted, rfl⟩, fun gab => wp_silent (by trivial) fun _ => ?_⟩
            cases gab with
            | none => exact tornDown_spec hassigned (released_spec (by trivial) (by simp))
            | some gab => exact deriveSecrets_spec rfl rfl rfl rfl

end Operator

section Runs
variable {Callback : Type} {tcrypto : Tcrypto} {role : Role}

/-- The view of a whole trace. -/
def viewOf (events : List (Event (Call Callback))) : View := events.foldl View.observe {}

/-- What the enclave holds when the trace stops, once it has both shares. -/
def handshakeOf (role : Role) (events : List (Event (Call Callback))) : Option Handshake :=
  (viewOf events).handshake role

/-- One view knows what the other does. -/
structure Extends (view later : View) : Prop where
  nonce : ∀ value, view.nonce = some value → later.nonce = some value
  keyPair : ∀ value, view.keyPair = some value → later.keyPair = some value
  sent : ∀ value, view.sent = some value → later.sent = some value
  received : ∀ value, view.received = some value → later.received = some value
  shared : ∀ value, view.shared = some value → later.shared = some value

theorem Extends.refl (view : View) : Extends view view :=
  ⟨fun _ => id, fun _ => id, fun _ => id, fun _ => id, fun _ => id⟩

theorem Extends.trans {view later last : View} (h : Extends view later) (h' : Extends later last) :
    Extends view last where
  nonce value hvalue := h'.nonce value (h.nonce value hvalue)
  keyPair value hvalue := h'.keyPair value (h.keyPair value hvalue)
  sent value hvalue := h'.sent value (h.sent value hvalue)
  received value hvalue := h'.received value (h.received value hvalue)
  shared value hvalue := h'.shared value (h.shared value hvalue)

theorem or_kept {α : Type} {old new : Option α} (value : α) (h : old = some value) :
    old.or new = some value := by
  rw [h, Option.some_or]

theorem extends_observe (view : View) (event : Event (Call Callback)) :
    Extends view (view.observe event) := by
  cases event with
  | issued c =>
    cases c with
    | auntieMsgSend => exact { Extends.refl view with sent := or_kept }
    | _ => exact Extends.refl view
  | answered c answer =>
    cases c with
    | sgxReadRand size =>
      simp only [View.observe, View.answered]
      split
      · exact { Extends.refl view with nonce := or_kept }
      · exact Extends.refl view
    | sgxEcc256CreateKeyPair => exact { Extends.refl view with keyPair := or_kept }
    | auntieMsgReceive => exact { Extends.refl view with received := or_kept }
    | sgxEcc256ComputeSharedDhkey => exact { Extends.refl view with shared := or_kept }
    | _ => exact Extends.refl view

theorem extends_foldl (view : View) (events : List (Event (Call Callback))) :
    Extends view (events.foldl View.observe view) := by
  induction events generalizing view with
  | nil => exact Extends.refl view
  | cons event events ih => exact (extends_observe view event).trans (ih _)

theorem Extends.handshake {view later : View} (h : Extends view later) {handshake : Handshake}
    (hview : view.handshake role = some handshake) : later.handshake role = some handshake := by
  obtain ⟨x, share, nonce, msg, gab, hkeyPair, hnonce, hreceived, hshared, heq⟩ :=
    View.handshake_eq_some.mp hview
  exact View.handshake_eq_some.mpr ⟨x, share, nonce, msg, gab, h.keyPair _ hkeyPair,
    h.nonce _ hnonce, h.received _ hreceived, h.shared _ hshared, heq⟩

theorem keyPair_answered {view : View} {events : List (Event (Call Callback))}
    {pair : PrivateKey × PublicKey} (h : (events.foldl View.observe view).keyPair = some pair) :
    view.keyPair = some pair ∨ .answered .sgxEcc256CreateKeyPair (some pair) ∈ events := by
  induction events generalizing view with
  | nil => exact Or.inl h
  | cons event events ih =>
    rcases ih h with hview | hlater
    · cases event with
      | issued c => cases c <;> exact Or.inl hview
      | answered c answer =>
        cases c with
        | sgxEcc256CreateKeyPair =>
          rcases Option.or_eq_some_iff.mp hview with hold | ⟨-, rfl⟩
          · exact Or.inl hold
          · exact Or.inr List.mem_cons_self
        | sgxReadRand size =>
          simp only [View.observe, View.answered] at hview
          split at hview
          · exact Or.inl hview
          · exact Or.inl hview
        | _ => exact Or.inl hview
    · exact Or.inr (List.mem_cons_of_mem _ hlater)

theorem shared_answered {view : View} {events : List (Event (Call Callback))} {gab : SharedKey}
    (h : (events.foldl View.observe view).shared = some gab) :
    view.shared = some gab ∨
      ∃ own peer, .answered (.sgxEcc256ComputeSharedDhkey own peer) (some gab) ∈ events := by
  induction events generalizing view with
  | nil => exact Or.inl h
  | cons event events ih =>
    rcases ih h with hview | ⟨own, peer, hlater⟩
    · cases event with
      | issued c => cases c <;> exact Or.inl hview
      | answered c answer =>
        cases c with
        | sgxEcc256ComputeSharedDhkey own peer =>
          rcases Option.or_eq_some_iff.mp hview with hold | ⟨-, rfl⟩
          · exact Or.inl hold
          · exact Or.inr ⟨own, peer, List.mem_cons_self⟩
        | sgxReadRand size =>
          simp only [View.observe, View.answered] at hview
          split at hview
          · exact Or.inl hview
          · exact Or.inl hview
        | _ => exact Or.inl hview
    · exact Or.inr ⟨own, peer, List.mem_cons_of_mem _ hlater⟩

theorem observe_follows {σ : Type} :
    (follows tcrypto role : Monitor (Call Callback) σ View).observe = View.observe := by
  funext view event
  cases event with
  | issued c => rfl
  | answered c answer => rfl

theorem sent_issued {view : View} {event : Event (Call Callback)} {msg : Message}
    (h : (view.observe event).sent = some msg) :
    view.sent = some msg ∨
      view.sent = none ∧ ∃ channel, event = .issued (.auntieMsgSend msg channel) := by
  cases event with
  | issued c =>
    cases c with
    | auntieMsgSend sent channel =>
      rcases Option.or_eq_some_iff.mp h with hold | ⟨hnone, hsent⟩
      · exact Or.inl hold
      · cases hsent
        exact Or.inr ⟨hnone, channel, rfl⟩
    | _ => exact Or.inl h
  | answered c answer =>
    cases c with
    | sgxReadRand size =>
      simp only [View.observe, View.answered] at h
      split at h
      · exact Or.inl h
      · exact Or.inl h
    | _ => exact Or.inl h

/-- The first message sent holds the own share and nonce. -/
def SaidHello (role : Role) (view : View) (msg : Message) : Prop :=
  ∃ x share nonce, view.keyPair = some (x, share) ∧ view.nonce = some nonce ∧
    role.hello (share, nonce) msg

theorem Extends.saidHello {view later : View} (h : Extends view later) {msg : Message}
    (hhello : SaidHello role view msg) : SaidHello role later msg := by
  obtain ⟨x, share, nonce, hkeyPair, hnonce, hmsg⟩ := hhello
  exact ⟨x, share, nonce, h.keyPair _ hkeyPair, h.nonce _ hnonce, hmsg⟩

theorem saidHello_of_accepts {σ : Type} {view : View} {events : List (Event (Call Callback))}
    {msg : Message}
    (haccepts : (follows tcrypto role : Monitor (Call Callback) σ View).Accepts view events)
    (hview : view.sent = some msg → SaidHello role view msg)
    (hsent : (events.foldl View.observe view).sent = some msg) :
    SaidHello role (events.foldl View.observe view) msg := by
  induction events generalizing view with
  | nil => exact hview hsent
  | cons event events ih =>
    have hobserved : (view.observe event).sent = some msg →
        SaidHello role (view.observe event) msg := by
      intro hsent
      rcases sent_issued hsent with hold | ⟨hnone, channel, rfl⟩
      · exact (extends_observe view event).saidHello (hview hold)
      · obtain ⟨⟨_, -, hsafe⟩, -⟩ := haccepts
        exact (extends_observe view _).saidHello (hsafe hnone)
    cases event with
    | issued c => exact ih haccepts.2 hobserved hsent
    | answered c answer => exact ih haccepts hobserved hsent

/-- The answers of the curve are those of `pub` and `dh`. -/
structure OnCurve (pub : PrivateKey → PublicKey) (dh : PrivateKey → PublicKey → SharedKey)
    (events : List (Event (Call Callback))) : Prop where
  keyPair : ∀ x share, .answered .sgxEcc256CreateKeyPair (some (x, share)) ∈ events → share = pub x
  shared : ∀ own peer gab,
    .answered (.sgxEcc256ComputeSharedDhkey own peer) (some gab) ∈ events → gab = dh own peer

/-- The channels that a call uses. -/
def UsesChannel (events : List (Event (Call Callback))) (channel : ChannelRef) : Prop :=
  (∃ msg, .issued (.auntieMsgSend msg channel) ∈ events) ∨
    .issued (.auntieMsgReceive channel) ∈ events ∨ .issued (.channelTeardown channel) ∈ events

/-- The run uses what the handshake determines: the report data it binds, the keys of its
channels, and the report data it expects once the handshake has returned. -/
structure Uses (tcrypto : Tcrypto) (role : Role) (events : List (Event (Call Callback)))
    (returned : Option (ReportData × ChannelRef)) : Prop where
  bound : ∀ target data, .issued (.sgxCreateReport target data) ∈ events →
    ∃ handshake, handshakeOf role events = some handshake ∧ data = role.bound tcrypto handshake
  keyed : ∀ channel, UsesChannel events channel → KeyedBy tcrypto role (viewOf events) channel
  expected : ∀ reportData channel, returned = some (reportData, channel) →
    Returned tcrypto role (viewOf events) reportData channel

section Accepted
variable {σ α : Type} {p : Code Callback σ α} {state last : σ}
  {events : List (Event (Call Callback))} {result : Option α} {post : α → σ → View → Prop}
  (hexec : Exec p state events last result) (hspec : wp (follows tcrypto role) post p state {})
include hexec hspec

/-- A call of a run was safe under a view that the final one extends. -/
theorem issued_view {β : Type} {c : Call Callback β} (hc : .issued c ∈ events) :
    ∃ (current : σ) (view : View), Extends view (viewOf events) ∧
      (follows tcrypto role : Monitor (Call Callback) σ View).safe current view c := by
  obtain ⟨before, after, rfl⟩ := List.append_of_mem hc
  obtain ⟨current, hsafe⟩ := (hexec.accepts hspec).issued
  rw [observe_follows] at hsafe
  refine ⟨current, before.foldl View.observe {}, ?_, hsafe⟩
  rw [viewOf, List.foldl_append]
  exact extends_foldl _ _

theorem bound_of_issued {target : TargetInfo} {data : ReportData}
    (h : .issued (.sgxCreateReport target data) ∈ events) :
    ∃ handshake, handshakeOf role events = some handshake ∧ data = role.bound tcrypto handshake := by
  obtain ⟨_, view, hextends, handshake, hview, hdata⟩ := issued_view hexec hspec h
  exact ⟨handshake, hextends.handshake hview, hdata⟩

theorem keyed_of_used {channel : ChannelRef} (h : UsesChannel events channel) :
    KeyedBy tcrypto role (viewOf events) channel := by
  have hkeyed : ∃ view, Extends view (viewOf events) ∧ KeyedBy tcrypto role view channel := by
    rcases h with ⟨msg, h⟩ | h | h
    · obtain ⟨_, view, hextends, hkeyed, -⟩ := issued_view hexec hspec h
      exact ⟨view, hextends, hkeyed⟩
    · obtain ⟨_, view, hextends, hkeyed⟩ := issued_view hexec hspec h
      exact ⟨view, hextends, hkeyed⟩
    · obtain ⟨_, view, hextends, hkeyed⟩ := issued_view hexec hspec h
      exact ⟨view, hextends, hkeyed⟩
  obtain ⟨view, hextends, hkeyed⟩ := hkeyed
  intro key hkey
  obtain ⟨handshake, hview, hsame⟩ := hkeyed key hkey
  exact ⟨handshake, hextends.handshake hview, hsame⟩

theorem saidHello {msg : Message} (h : (viewOf events).sent = some msg) :
    SaidHello role (viewOf events) msg :=
  saidHello_of_accepts (hexec.accepts hspec) (by simp) h

/-- The own share belongs to a private key, which gave the shared secret together with the
share of the other side. -/
theorem shared_of_handshake {pub : PrivateKey → PublicKey}
    {dh : PrivateKey → PublicKey → SharedKey} (hcurve : OnCurve pub dh events)
    {handshake : Handshake} (h : handshakeOf role events = some handshake) :
    ∃ own share nonce msg, (viewOf events).received = some msg ∧ role.accepts msg ∧
      (viewOf events).keyPair = some (own, share) ∧ (viewOf events).nonce = some nonce ∧
      share = pub own ∧
      handshake = role.handshake (share, nonce) (role.peer msg) (dh own (role.peer msg).1) := by
  obtain ⟨own, share, nonce, msg, gab, hkeyPair, hnonce, hreceived, hshared, rfl⟩ :=
    View.handshake_eq_some.mp h
  obtain hnone | hanswered := keyPair_answered hkeyPair
  · cases hnone
  obtain hnone | ⟨own', peer, hdh⟩ := shared_answered hshared
  · cases hnone
  obtain ⟨_, view, hextends, share', msg', hkeyPair', hreceived', haccepts, rfl⟩ :=
    issued_view hexec hspec (hexec.issued_of_answered hdh)
  obtain ⟨rfl, rfl⟩ := Prod.mk.inj (Option.some.inj
    (hkeyPair.symm.trans (hextends.keyPair _ hkeyPair')))
  cases hreceived.symm.trans (hextends.received _ hreceived')
  exact ⟨own, share, nonce, msg, hreceived, haccepts, hkeyPair, hnonce,
    hcurve.keyPair _ _ hanswered, by rw [hcurve.shared _ _ _ hdh]⟩

end Accepted

end Runs

end Auntie.Guarantees.KeyAgreement
