import Auntie.Guarantees.KeyAgreement
import Auntie.Guarantees.PlayerTable
import Auntie.Guarantees.QuoteDistribution

/-!
# The slot of a player

The id in the SYN decides which slot the operator's enclave gives to a player, and the report
data that both sides compare are made of the nonces and the shares only. A player skips the quote
in the slot of the id it was started with, which is its own quote if and only if nobody has
replaced the id on the way.
-/

namespace Auntie.Guarantees.PlayerSlots
open Auntie.Source Auntie.Interaction
open KeyAgreement (View Handshake viewOf handshakeOf follows observe_follows extends_observe
  extends_foldl OnCurve CollisionFree SameSession)
open QuoteDistribution (printsOf shownOf presented presented_slots Prints broadcastSize)

section Views
variable {Callback σ α : Type}

/-- The view of a handshake, without a demand on the calls. -/
def viewing : Monitor (Call Callback) σ View where
  issued := View.issued
  answered := View.answered

theorem observe_viewing : (viewing : Monitor (Call Callback) σ View).observe = View.observe := by
  funext view event
  cases event with
  | issued c => rfl
  | answered c answer => rfl

theorem viewing_extends (p : Code Callback σ α) (state : σ) (view : View) :
    wp viewing (fun _ _ later => KeyAgreement.Extends view later) p state view := by
  induction p generalizing state view with
  | pure value => exact .refl view
  | get next ih => exact ih state state view
  | set state' next ih => exact ih state' view
  | call c next ih =>
    refine ⟨trivial, fun answer => wp_mono ?_ (ih answer state _)⟩
    intro _ _ later hextends
    exact ((extends_observe view (.issued c)).trans
      (extends_observe _ (.answered c answer))).trans hextends

/-- What is exchanged in the handshake is what the connection has exchanged. -/
theorem extends_parts {first second third : List (Event (Call Callback))}
    (hfirst : viewOf first = {}) :
    KeyAgreement.Extends (viewOf second) (viewOf (first ++ second ++ third)) := by
  have hall : viewOf (first ++ second ++ third) =
      third.foldl View.observe (second.foldl View.observe (viewOf first)) := by
    rw [viewOf, List.foldl_append, List.foldl_append]
    rfl
  rw [hall, hfirst]
  exact extends_foldl _ third

end Views

section Operator
open Source.Operator PlayerTable
variable {globals : Globals}

/-- The player has the id of the message. -/
def Named (msg : ReceivedMessage) (result : Option Player) : Prop :=
  ∀ player, result = some player → player.id = (Syn.decode msg).id

theorem named_none {msg : ReceivedMessage} : Named msg none := fun _ h => by cases h

theorem answerSyn_named {msg : ReceivedMessage} {channel : ChannelRef}
    (hid : channel.id = (Syn.decode msg).id) (msg1 : Pointer) (nonce : Blocks.Digest)
    (gb : PublicKey) (sessionKey : SessionKey) (operatorReportData playerReportData : ReportData) :
    wp unmonitored (fun result _ _ => Named msg result)
      (answerSyn channel msg1 nonce gb sessionKey operatorReportData playerReportData)
      globals () :=
  wp_mono (fun _ _ _ h player hplayer => (h player hplayer).2.trans hid)
    (answerSyn_assigned channel msg1 nonce gb sessionKey operatorReportData playerReportData)

/-- The first message that is received names the player. -/
def NamedBy (result : Option Player) (view : View) : Prop :=
  ∀ player, result = some player →
    ∃ msg, view.received = some msg ∧ player.id = (Syn.decode msg).id

theorem namedBy_of_named {p : Code (Option Player)} {msg : ReceivedMessage} {view : View}
    (hreceived : view.received = some msg)
    (h : wp unmonitored (fun result _ _ => Named msg result) p globals ()) :
    wp viewing (fun result _ view => NamedBy result view) p globals view := by
  have hnamed : wp ({} : Monitor (Call Callback) Globals Unit)
      (fun result last _ => Named msg result) p globals () := h
  refine wp_mono ?_ (wp_returns hnamed (viewing_extends p globals view))
  intro result _ later hresult player hplayer
  exact ⟨msg, hresult.2.received msg hreceived, hresult.1 player hplayer⟩

theorem mutualAttestation_named (tcrypto : Tcrypto) (numPlayers : Nat) (context : Pointer) :
    wp viewing (fun result _ view => NamedBy result view)
      (mutualAttestation tcrypto numPlayers context) globals {} := by
  rw [mutualAttestation, wp_bind, wp_issue]
  refine ⟨trivial, fun nonce => ?_⟩
  cases nonce with
  | none => exact fun _ h => by cases h
  | some nonce =>
    dsimp only
    rw [wp_bind, wp_issue]
    refine ⟨trivial, fun struct => ?_⟩
    cases struct with
    | none => exact fun _ h => by cases h
    | some struct =>
      dsimp only
      rw [wp_bind, wp_issue]
      refine ⟨trivial, fun msg1 => ?_⟩
      cases msg1 with
      | none => exact ⟨trivial, fun _ _ h => by cases h⟩
      | some msg1 =>
        dsimp only
        refine namedBy_of_named (rfl : _ = some msg1) ?_
        unfold deriveSecrets
        repeat' with_reducible first
          | apply step_returns
          | apply get_returns
          | apply getReportData_returns
          | apply getSessionKey_returns
          | refine answerSyn_named ?_ _ _ _ _ _ _
          | intro _
          | split
        all_goals first
          | exact named_none
          | rfl

/-- A channel in the table. -/
def Registered (globals : Globals) (channel : ChannelRef) : Prop :=
  ∃ (j : Nat) (player : Player),
    globals.players[j]? = some (some player) ∧ player.channel = channel

/-- The calls after the handshake: messages only go to the players in the table, and no report
is asked for. -/
def Told (globals : Globals) {β : Type} : Call Callback β → Prop
  | .auntieMsgSend _ channel => Registered globals channel
  | .sgxCreateReport _ _ => False
  | _ => True

open Program (Within)

theorem playerAt_told (i : Nat) : (playerAt i).Within (Told globals) (globals = ·) :=
  playerAt_within trivial i

/-- What the loops send goes to the player that they have read from the table. -/
theorem sendTo_told (msg : Message) (i : Nat) :
    (playerAt i >>= fun player => issue (.auntieMsgSend msg player.channel)).Within
      (Told globals) (globals = ·) := by
  rw [playerAt, bind_assoc]
  refine Within.get_bind fun current hcurrent => ?_
  obtain rfl := hcurrent
  cases hslot : globals.players[i]?.join with
  | none => exact ⟨trivial, fun answer => Empty.elim answer⟩
  | some player =>
    have hregistered : Told globals (.auntieMsgSend msg player.channel) :=
      ⟨i, player, Option.join_eq_some_iff.mp hslot, rfl⟩
    exact Within.issue hregistered

theorem presentQuotes_told (numPlayers : Nat) :
    (presentQuotes numPlayers).Within (Told globals) (globals = ·) :=
  presentQuotes_within (fun _ => trivial) (fun _ => trivial) (fun _ => trivial)
    (fun _ _ => trivial) (fun i _ => playerAt_told i) (fun _ _ _ i _ => sendTo_told _ i)

section Connect
variable {last : Globals} {events : List (Event (Call Callback))}

/-- All the calls of a trace are of this kind. -/
def Issues (allowed : {β : Type} → Call Callback β → Prop)
    (events : List (Event (Call Callback))) : Prop :=
  ∀ {β : Type} (c : Call Callback β), .issued c ∈ events → allowed c

theorem addPlayer_exec {numPlayers : Nat} {player : Player} {result : Option Unit}
    (hexec : Exec (addPlayer numPlayers player) globals events last result) :
    (result = none ∧ last = globals ∧ events = [.issued .fault]) ∨
      (result = some () ∧ last = added globals player ∧ events = []) := by
  rw [addPlayer, exec_get_bind] at hexec
  split at hexec
  · cases hexec with
    | waiting => exact .inl ⟨rfl, rfl, rfl⟩
    | answered answer => exact Empty.elim answer
  · cases hexec with
    | get hexec =>
      cases hexec with
      | set hexec =>
        cases hexec
        exact .inr ⟨rfl, rfl, rfl⟩

/-- Once the handshake has returned a player. -/
def registerPlayer (numPlayers : Nat) (player : Player) : Code Int32 := do
  addPlayer numPlayers player
  if allPlayersConnected numPlayers (← get) then
    presentQuotes numPlayers
  else
    return 0

theorem registerPlayer_told {numPlayers : Nat} {player : Player} {result : Option Int32}
    (hexec : Exec (registerPlayer numPlayers player) globals events last result) :
    (last.players = globals.players ∨ last.players = (added globals player).players) ∧
      Issues (Told last) events := by
  rcases hexec.of_bind with ⟨-, hadd⟩ | ⟨_, mid, first, rest, hadd, hrest, rfl⟩
  · rcases addPlayer_exec hadd with ⟨-, rfl, rfl⟩ | ⟨hresult, -⟩
    · refine ⟨.inl rfl, ?_⟩
      intro β c hc
      cases List.mem_singleton.mp hc
      trivial
    · cases hresult
  · rcases addPlayer_exec hadd with ⟨hresult, -⟩ | ⟨-, rfl, rfl⟩
    · cases hresult
    · rw [exec_get_bind] at hrest
      split at hrest
      · have htold : (presentQuotes numPlayers).Within (Told (added globals player))
            (added globals player = ·) := presentQuotes_told numPlayers
        obtain rfl := htold.kept hrest rfl
        exact ⟨.inr rfl, fun c hc => htold.issued hrest rfl hc⟩
      · obtain ⟨rfl, rfl, -⟩ := exec_pure.mp hrest
        exact ⟨.inr rfl, fun _ hc => by cases hc⟩

theorem silent_unseen {β : Type} {c : Call Callback β} (h : KeyAgreement.Silent c) (view : View)
    (answer : β) : (view.issued c).answered c answer = view := by
  cases c with
  | sgxReadRand | sgxEcc256CreateKeyPair | sgxEcc256ComputeSharedDhkey => cases h
  | sgxCreateReport | auntieMsgSend | auntieMsgReceive | channelTeardown => cases h
  | _ => rfl

theorem learnQuotingEnclave_silent : learnQuotingEnclave.Within
    (fun c => KeyAgreement.Silent c) (·.players = globals.players) :=
  learnQuotingEnclave_within trivial fun _ _ _ => id

theorem learnQuotingEnclave_unseen {value : Option Int32}
    (hexec : Exec learnQuotingEnclave globals events last (some value)) : viewOf events = {} := by
  have hquiet : wp viewing (fun _ _ view => view = {}) learnQuotingEnclave globals {} :=
    learnQuotingEnclave_silent.quiet (fun _ _ _ => trivial)
      (fun c answer hc => silent_unseen hc {} answer) rfl fun _ _ _ => rfl
  have hview := hexec.returned hquiet
  rwa [observe_viewing] at hview

/-- The parts of a connection that gets as far as the handshake. Where no player was returned,
nothing follows. -/
structure Parts (dep : Deployment) (context : Pointer) (before last : Globals)
    (first second third : List (Event (Call Callback))) : Prop where
  learned : Issues (fun c => KeyAgreement.Silent c) first
  unseen : viewOf first = {}
  attested : ∃ mid after found, Exec (mutualAttestation dep.tcrypto dep.build.numPlayers context)
    mid second after found ∧ mid.players = before.players ∧
      (found.join = none → third = [] ∧ last = after) ∧
      ∀ player, found = some (some player) →
        ∃ result, Exec (registerPlayer dep.build.numPlayers player) after third last result

theorem parts_of_exec {dep : Deployment} {context : Pointer} {result : Option Int32}
    (hexec : Exec (ecallConnectToPlayer dep context) globals events last result) :
    (last.players = globals.players ∧ Issues (fun c => KeyAgreement.Silent c) events) ∨
      ∃ first second third, events = first ++ second ++ third ∧
        Parts dep context globals last first second third := by
  have hsilent : learnQuotingEnclave.Within (fun c => KeyAgreement.Silent c)
      (·.players = globals.players) := learnQuotingEnclave_silent
  rw [ecallConnectToPlayer, exec_get_bind] at hexec
  split at hexec
  · obtain ⟨rfl, rfl, -⟩ := exec_pure.mp hexec
    exact .inl ⟨rfl, fun _ hc => by cases hc⟩
  · rcases hexec.of_bind with ⟨-, hlearn⟩ | ⟨error, mid, first, rest, hlearn, hrest, rfl⟩
    · exact .inl ⟨hsilent.kept hlearn rfl, fun c hc => hsilent.issued hlearn rfl hc⟩
    · have hkept := hsilent.kept hlearn rfl
      have hfirst : Issues (fun c => KeyAgreement.Silent c) first :=
        fun c hc => hsilent.issued hlearn rfl hc
      cases error with
      | some error =>
        obtain ⟨rfl, rfl, -⟩ := exec_pure.mp hrest
        rw [List.append_nil]
        exact .inl ⟨hkept, hfirst⟩
      | none =>
        right
        have hunseen : viewOf first = {} := learnQuotingEnclave_unseen hlearn
        rcases hrest.of_bind with ⟨-, hattest⟩ | ⟨found, after, second, third, hattest, hrest, rfl⟩
        · refine ⟨first, rest, [], (List.append_nil _).symm, hfirst, hunseen, ?_⟩
          exact ⟨mid, last, none, hattest, hkept, fun _ => ⟨rfl, rfl⟩, fun _ h => by cases h⟩
        · refine ⟨first, second, third, (List.append_assoc _ _ _).symm, hfirst, hunseen, ?_⟩
          refine ⟨mid, after, some found, hattest, hkept, ?_, ?_⟩
          · intro hnone
            cases found with
            | none =>
              obtain ⟨rfl, rfl, -⟩ := exec_pure.mp hrest
              exact ⟨rfl, rfl⟩
            | some player => cases hnone
          · intro player hplayer
            cases hplayer
            exact ⟨result, hrest⟩

end Connect

section Table
variable {dep : Deployment}

/-- The handshake in which a player has been admitted. -/
def Admits (tcrypto : Tcrypto) (events : List (Event (Call Callback))) (player : Player) : Prop :=
  ∃ handshake msg, handshakeOf KeyAgreement.operator events = some handshake ∧
    (viewOf events).received = some msg ∧ player.id = (Syn.decode msg).id ∧
    player.channel.sessionKey = some (handshake.sessionKey tcrypto)

theorem admits_of_returned {tcrypto : Tcrypto} {numPlayers : Nat} {context : Pointer}
    {last : Globals} {first second third : List (Event (Call Callback))} {player : Player}
    (hfirst : viewOf first = {})
    (hexec : Exec (mutualAttestation tcrypto numPlayers context) globals second last
      (some (some player))) : Admits tcrypto (first ++ second ++ third) player := by
  have hnamed := hexec.returned (mutualAttestation_named tcrypto numPlayers context)
  have hfollows := hexec.returned KeyAgreement.operator_spec
  rw [observe_viewing] at hnamed
  rw [observe_follows] at hfollows
  obtain ⟨msg, hreceived, hid⟩ := hnamed player rfl
  obtain ⟨handshake, hview, -, hkey⟩ := hfollows player rfl
  have hextends : KeyAgreement.Extends (viewOf second) (viewOf (first ++ second ++ third)) :=
    extends_parts hfirst
  exact ⟨handshake, msg, hextends.handshake hview, hextends.received _ hreceived, hid, hkey⟩

/-- What one step adds to the table, and whom it tells of it. -/
structure Adds (step : Step (enclave dep)) : Prop where
  admitted : ∀ (j : Nat) (player : Player), step.after.players[j]? = some (some player) →
    step.before.players[j]? = some (some player) ∨
      (connects step ∧ Admits dep.tcrypto step.events player)
  told : ∀ msg channel, .issued (.auntieMsgSend msg channel) ∈ step.events →
    msg.msgType = msgPlayersQuotesBroadcast → Registered step.after channel

theorem connect_adds {context : Pointer} {last : Globals} {events : List (Event (Call Callback))}
    {result : Option Int32}
    (hexec : Exec (ecallConnectToPlayer dep context) globals events last result) :
    Adds (⟨globals, Ecall.ecallConnectToPlayer context, events, last, result⟩ :
      Step (enclave dep)) := by
  rcases parts_of_exec hexec with ⟨hplayers, hsilent⟩ | ⟨first, second, third, rfl, hparts⟩
  · constructor
    · intro j player hslot
      rw [← hplayers]
      exact .inl hslot
    · intro msg channel hsent
      exact absurd (hsilent _ hsent) id
  · obtain ⟨hlearned, hunseen, mid, after, found, hattest, hmid, hnone, hfound⟩ := hparts
    have hwithin : (mutualAttestation dep.tcrypto dep.build.numPlayers context).Within
        (Call.Sends [msgAttestationSynack]) (·.players = globals.players) :=
      mutualAttestation_sends (fun _ _ h => h) _ _ _
    have hafter : after.players = globals.players := hwithin.kept hattest hmid
    have hfirst : ∀ msg channel, .issued (.auntieMsgSend msg channel) ∈ first ++ second →
        msg.msgType ≠ msgPlayersQuotesBroadcast := by
      intro msg channel hsent htype
      rcases List.mem_append.mp hsent with hsent | hsent
      · exact absurd (hlearned _ hsent) id
      · have hmem : msg.msgType ∈ [msgAttestationSynack] := hwithin.issued hattest hmid hsent
        rw [htype] at hmem
        simp at hmem
    rcases hplayer : found.join with _ | player
    · obtain ⟨rfl, rfl⟩ := hnone hplayer
      constructor
      · intro j player hslot
        rw [← hafter]
        exact .inl hslot
      · intro msg channel hsent htype
        rw [List.append_nil] at hsent
        exact absurd htype (hfirst msg channel hsent)
    · obtain rfl := Option.join_eq_some_iff.mp hplayer
      obtain ⟨result', hadmit⟩ := hfound player rfl
      obtain ⟨hlast, htold⟩ := registerPlayer_told hadmit
      have hadmits : Admits dep.tcrypto (first ++ second ++ third) player :=
        admits_of_returned hunseen hattest
      constructor
      · intro j other hslot
        rcases hlast with hlast | hlast
        · rw [← hafter, ← hlast]
          exact .inl hslot
        · change last.players[j]? = _ at hslot
          rw [hlast, added] at hslot
          by_cases hsame : player.id - 1 = j
          · obtain ⟨hlt, hget⟩ := List.getElem?_eq_some_iff.mp hslot
            subst hsame
            rw [List.getElem_set_self, Option.some.injEq] at hget
            exact .inr ⟨rfl, hget ▸ hadmits⟩
          · rw [List.getElem?_set_ne hsame, hafter] at hslot
            exact .inl hslot
      · intro msg channel hsent htype
        rcases List.mem_append.mp hsent with hsent | hsent
        · exact absurd htype (hfirst msg channel hsent)
        · exact htold _ hsent

/-- The monitor of code that sends the messages of the contract at most. -/
def contracting : Monitor (Call Callback) Globals Unit where
  safe _ _ c := c.Sends [msgClearContract]

theorem contracting_quiet {α : Type} {keeps : Globals → Prop} {p : Code α}
    {post : α → Globals → Unit → Prop} (h : p.Within (Call.Sends [msgClearContract]) keeps)
    (hstate : keeps globals) (hpost : ∀ value last, keeps last → post value last ()) :
    wp contracting post p globals () :=
  h.quiet (fun _ _ hc => hc) (fun _ _ _ => rfl) hstate hpost

theorem other_sends {op : Ecall} (hother : ∀ context, op ≠ .ecallConnectToPlayer context) :
    wp contracting (fun _ _ _ => True) (handle dep op) globals () := by
  have hnone : ∀ {β : Type} (c : Call Callback β), c.Sends [] → c.Sends [msgClearContract] := by
    intro β c hc
    cases c with
    | auntieMsgSend => cases hc
    | _ => trivial
  cases op with
  | ecallConnectToPlayer context => exact absurd rfl (hother context)
  | ecallInitialize context =>
    change wp contracting (fun _ _ _ => True) (ecallInitialize context) globals ()
    simp only [ecallInitialize, setState, wp_bind, wp_get, wp_ite, wp_pure, wp_modify]
    refine ⟨fun _ => trivial, fun _ => ?_⟩
    have hwithin : (ecallInitializeImpl context).Within (Call.Sends [msgClearContract])
        (WalletOnly globals) :=
      (ecallInitializeImpl_within context).mono fun _ hc => hnone _ (hc.sends not_false)
    exact contracting_quiet hwithin ⟨_, rfl⟩ fun _ _ _ => ⟨fun _ => trivial, fun _ => trivial⟩
  | ecallClearContract context payoutAddress collateralTransaction merklePaths =>
    change wp contracting (fun _ _ _ => True)
      (ecallClearContract dep context payoutAddress collateralTransaction merklePaths) globals ()
    simp only [ecallClearContract, setState, wp_bind, wp_get, wp_ite, wp_pure, wp_modify]
    refine ⟨fun _ => trivial, fun _ => ?_⟩
    exact contracting_quiet (ecallClearContractImpl_within context payoutAddress
      collateralTransaction merklePaths) ⟨_, _, rfl⟩ fun _ _ _ => trivial
  | ecallFinalize context =>
    change wp contracting (fun _ _ _ => True) (ecallFinalize dep context) globals ()
    simp only [ecallFinalize, setState, wp_bind, wp_get, wp_ite, wp_pure, wp_modify]
    refine ⟨fun _ => trivial, fun _ => ?_⟩
    have hwithin : (ecallFinalizeImpl dep.build context).Within (Call.Sends [msgClearContract])
        (SettlementOnly globals) :=
      (ecallFinalizeImpl_within context).mono fun _ hc => hnone _ hc
    exact contracting_quiet hwithin ⟨_, _, rfl⟩ fun _ _ _ => trivial
  | ecallRefund context blocks =>
    change wp contracting (fun _ _ _ => True) (ecallRefund dep context blocks) globals ()
    simp only [ecallRefund, setState, wp_bind, wp_get, wp_ite, wp_pure, wp_modify]
    refine ⟨fun _ => trivial, fun _ => ?_⟩
    have hwithin : (ecallRefundImpl dep context blocks).Within (Call.Sends [msgClearContract])
        fun _ => True := (ecallRefundImpl_sends dep context blocks).mono fun _ hc => hnone _ hc
    exact contracting_quiet hwithin trivial fun _ _ _ => ⟨fun _ => trivial, fun _ => trivial⟩

theorem step_adds {step : Step (enclave dep)} (valid : step.Valid) : Adds step := by
  obtain ⟨before, op, events, last, result⟩ := step
  let result : Option Int32 := result
  have hexec : Exec (handle dep op) before events last result := valid
  by_cases hconnect : ∃ context, op = .ecallConnectToPlayer context
  · obtain ⟨context, rfl⟩ := hconnect
    exact connect_adds hexec
  · have hother : ∀ context, op ≠ .ecallConnectToPlayer context :=
      fun context hsame => hconnect ⟨context, hsame⟩
    have hkept : SetupKept before last :=
      (other_moves hother).reaches SetupKept.refl SetupKept.trans hexec
    constructor
    · intro j player hslot
      rw [← hkept.1.1]
      exact .inl hslot
    · intro msg channel hsent htype
      obtain ⟨_, _, hsends⟩ := hexec.issued_safe (other_sends hother) hsent
      have hmem : msg.msgType ∈ [msgClearContract] := hsends
      rw [htype] at hmem
      simp at hmem

/-- Every player in the table was admitted in a connection, and the broadcasts have gone to
players in the table. -/
structure Known (steps : List (Step (enclave dep))) (last : Globals) : Prop where
  admitted : ∀ (j : Nat) (player : Player), last.players[j]? = some (some player) →
    ∃ step ∈ steps, connects step ∧ Admits dep.tcrypto step.events player
  told : ∀ step ∈ steps, ∀ msg channel, .issued (.auntieMsgSend msg channel) ∈ step.events →
    msg.msgType = msgPlayersQuotesBroadcast → Registered last channel

theorem Registered.extends {before last : Globals} {channel : ChannelRef}
    (h : Registered before channel) (hextends : PlayerTable.Extends before last) :
    Registered last channel := by
  obtain ⟨j, player, hslot, hchannel⟩ := h
  exact ⟨j, player, hextends j player hslot, hchannel⟩

theorem Known.next {steps : List (Step (enclave dep))} {step : Step (enclave dep)}
    (h : Known steps step.before) (valid : step.Valid) : Known (steps ++ [step]) step.after := by
  have hadds := step_adds valid
  have hextends : PlayerTable.Extends step.before step.after :=
    (handle_moves step.op step.before).reaches Extends.refl Extends.trans valid
  constructor
  · intro j player hslot
    rcases hadds.admitted j player hslot with hslot | hadmits
    · obtain ⟨other, hother, hadmits⟩ := h.admitted j player hslot
      exact ⟨other, List.mem_append_left _ hother, hadmits⟩
    · exact ⟨step, List.mem_append_right _ List.mem_cons_self, hadmits⟩
  · intro other hother msg channel hsent htype
    rcases List.mem_append.mp hother with hother | hother
    · exact (h.told other hother msg channel hsent htype).extends hextends
    · rw [List.mem_singleton.mp hother] at hsent
      exact hadds.told msg channel hsent htype

theorem initial_known : Known ([] : List (Step (enclave dep))) (initial dep) := by
  constructor
  · intro j player hslot
    simp [initial, List.getElem?_replicate] at hslot
  · exact fun step hstep => absurd hstep List.not_mem_nil

theorem run_known {steps : List (Step (enclave dep))} {last : Globals}
    (run : Run (enclave dep) (initial dep) steps last) : Known steps last := by
  induction run with
  | start => exact initial_known
  | next _ valid _ ih => exact ih.next valid

theorem trace_known {steps : List (Step (enclave dep))} {last : Globals}
    (trace : Trace (enclave dep) (initial dep) steps last) : Known steps last := by
  cases trace with
  | resting run => exact run_known run
  | inside run valid _ => exact (run_known run).next valid

/-- A report is asked for in the handshake of a connection. -/
theorem reported_in_handshake {step : Step (enclave dep)} (valid : step.Valid)
    (hconnects : connects step) {target : TargetInfo} {data : ReportData}
    (hreported : .issued (.sgxCreateReport target data) ∈ step.events) :
    ∃ context mid after events found, Exec (mutualAttestation dep.tcrypto dep.build.numPlayers
      context) mid events after found ∧ .issued (.sgxCreateReport target data) ∈ events ∧
      (∀ event ∈ events, event ∈ step.events) ∧
      KeyAgreement.Extends (viewOf events) (viewOf step.events) := by
  obtain ⟨before, op, events, last, result⟩ := step
  cases op with
  | ecallConnectToPlayer context =>
    have hexec : Exec (ecallConnectToPlayer dep context) before events last result := valid
    rcases parts_of_exec hexec with ⟨-, hsilent⟩ | ⟨first, second, third, rfl, hparts⟩
    · exact absurd (hsilent _ hreported) id
    · obtain ⟨hlearned, hunseen, mid, after, found, hattest, -, hnone, hfound⟩ := hparts
      refine ⟨context, mid, after, second, found, hattest, ?_, ?_, extends_parts hunseen⟩
      · rcases List.mem_append.mp hreported with hreported | hreported
        · rcases List.mem_append.mp hreported with hreported | hreported
          · exact absurd (hlearned _ hreported) id
          · exact hreported
        · rcases hplayer : found.join with _ | player
          · rw [(hnone hplayer).1] at hreported
            cases hreported
          · obtain ⟨_, hadmit⟩ := hfound player (Option.join_eq_some_iff.mp hplayer)
            exact absurd ((registerPlayer_told hadmit).2 _ hreported) id
      · intro event hevent
        exact List.mem_append_left _ (List.mem_append_right _ hevent)
  | _ => cases hconnects

end Table

end Operator

section Player
open Source.Player

/-- A connection that returns zero has been through a handshake. -/
theorem ecallConnectToOperator_attested (dep : Deployment) (context : Pointer) (playerId : Nat)
    (globals : Globals) :
    wp tape (fun ret last events => ret = 0 →
        ∃ quotingEnclave operator first mid second after third,
          viewOf first = {} ∧ events = first ++ second ++ third ∧ last.operator = some operator ∧
          Exec (mutualAttestation dep.tcrypto context quotingEnclave playerId) mid second after
            (some (some operator)))
      (ecallConnectToOperator dep context playerId) globals [] := by
  simp only [ecallConnectToOperator, ecallConnectToOperatorImpl, wp_bind, wp_get, wp_ite, wp_pure,
    wp_tape_issue]
  refine ⟨fun _ h => absurd h ebusy_error, fun _ answer => ⟨fun hret h => absurd h hret, fun _ => ?_⟩⟩
  refine wp_tape_from (wp_tape_exec _ _) ?_
  intro found after second hexec
  rw [wp_modify]
  cases found with
  | none => exact fun h => absurd h eio_error
  | some operator =>
    rw [wp_bind]
    refine wp_tape_from (QuoteDistribution.presentQuotes_prints _ playerId operator) ?_
    rintro ret _ third ⟨rfl, -⟩
    simp only [wp_ite, wp_bind, wp_tape_issue, wp_modify, wp_pure]
    refine ⟨fun hret _ _ _ h => absurd h hret, fun _ _ => ?_⟩
    exact ⟨answer.2, operator, _, globals, second, after, third, rfl, rfl, rfl, hexec⟩

/-- What the player holds of the operator is what this handshake determines. -/
structure HoldsHandshake (tcrypto : Tcrypto) (operator : Operator) (p : Handshake) : Prop where
  reportData : operator.reportData = p.operatorReportData tcrypto
  sessionKey : operator.channel.sessionKey = some (p.sessionKey tcrypto)

/-- The handshake of such a connection is that of its `mutual_attestation`. -/
theorem connected_handshake {dep : Deployment} {step : Step (enclave dep)} (valid : step.Valid)
    {context : Pointer} {k : Nat} (hop : step.op = Ecall.ecallConnectToOperator context k)
    (hresult : step.result = some (0 : Int32)) {operator : Operator}
    (hoperator : step.after.operator = some operator) :
    ∃ quotingEnclave mid events after p,
      Exec (mutualAttestation dep.tcrypto context quotingEnclave k) mid events after
        (some (some operator)) ∧
      (∀ event ∈ events, event ∈ step.events) ∧
      handshakeOf KeyAgreement.player events = some p ∧
      handshakeOf KeyAgreement.player step.events = some p ∧
      HoldsHandshake dep.tcrypto operator p := by
  obtain ⟨before, op, events, after, result⟩ := step
  cases hop
  cases hresult
  obtain ⟨quotingEnclave, attested, first, mid, second, final, third, hfirst, rfl, hattested,
    hexec⟩ := Exec.taped valid (ecallConnectToOperator_attested dep context k before) rfl
  cases hattested.symm.trans hoperator
  have hfollows := hexec.returned KeyAgreement.player_spec
  rw [observe_follows] at hfollows
  obtain ⟨p, hview, hdata, hkey⟩ := hfollows operator rfl
  refine ⟨quotingEnclave, mid, second, final, p, hexec, fun event hevent => ?_, hview,
    (extends_parts hfirst).handshake hview, hdata, hkey⟩
  exact List.mem_append_left _ (List.mem_append_right _ hevent)

end Player

section Slots
open Operator (Globals)
open PlayerTable (connects)
variable {dep : Deployment}

/-- The slot of the id `k` has the player at the other end of the channel, so that what is printed
is the quotes of all the others and the operator's. -/
def HasSlot (numPlayers : Nat) (globals : Globals) (events : List (Event (Call Player.Callback)))
    (operator : Player.Operator) (k : Nat) : Prop :=
  1 ≤ k ∧ ∃ (filled : List Operator.Player) (registered : Operator.Player),
    filled.length = numPlayers ∧ globals.players = filled.map some ∧
    filled[k - 1]? = some registered ∧
    registered.channel.sessionKey = operator.channel.sessionKey ∧
    (printsOf events).map Prod.fst = (filled.eraseIdx (k - 1)).map shownOf ++
      [(operator.quote.contents, operator.reportData)]

/-- In the connection for which the operator has drawn the share `gb`, a SYN with the id `k` has
arrived. -/
def IdArrived (steps : List (Step (Operator.enclave dep))) (gb : PublicKey) (k : Nat) : Prop :=
  ∃ connect ∈ steps, ∃ handshake msg,
    handshakeOf KeyAgreement.operator connect.events = some handshake ∧ handshake.gb = gb ∧
    (viewOf connect.events).received = some msg ∧ (Syn.decode msg).id = k

/-- What the curve, the hash, the derivation of the keys, the quotes and the encrypted channels
promise to a player that has been through the handshake `p`. -/
structure Trusted (pub : PrivateKey → PublicKey) (dh : PrivateKey → PublicKey → SharedKey)
    (steps : List (Step (Operator.enclave dep))) (step : Step (Player.enclave dep))
    (operator : Player.Operator) (p : Handshake) : Prop where
  symmetric : ∀ a b, dh a (pub b) = dh b (pub a)
  onCurve : OnCurve pub dh step.events
  operatorOnCurve : ∀ connect ∈ steps, OnCurve pub dh connect.events
  collisionFree : ∀ connect ∈ steps, ∀ o,
    handshakeOf KeyAgreement.operator connect.events = some o →
      CollisionFree dep.tcrypto (p.hashed ++ o.hashed)
  /-- Every key pair is new. -/
  fresh : ∀ connect ∈ steps, ∀ other ∈ steps, ∀ o o',
    handshakeOf KeyAgreement.operator connect.events = some o →
      handshakeOf KeyAgreement.operator other.events = some o' → o.gb = o'.gb → connect = other
  /-- Equal session keys are those of equal shares. -/
  keys : ∀ connect ∈ steps, ∀ o, handshakeOf KeyAgreement.operator connect.events = some o →
    o.sessionKey dep.tcrypto = p.sessionKey dep.tcrypto → o.gb = p.gb
  /-- The quote printed beside the report data that the player expects holds them, and nobody but
  the operator's enclave can have made it. -/
  quoted : ∃ connect ∈ steps, connects connect ∧
    ∃ target, .issued (.sgxCreateReport target operator.reportData) ∈ connect.events
  /-- Nobody else has the key that both have derived. -/
  authentic : ∀ connect ∈ steps, ∀ o,
    handshakeOf KeyAgreement.operator connect.events = some o → SameSession dep.tcrypto p o →
      ∀ msg : ReceivedMessage,
        .answered (.auntieMsgReceive operator.channel) (some msg) ∈ step.events →
          ∃ sender ∈ steps, ∃ channel,
            .issued (.auntieMsgSend msg.toMessage channel) ∈ sender.events ∧
            channel.sessionKey = operator.channel.sessionKey

theorem OnCurve.mono {Callback : Type} {pub : PrivateKey → PublicKey}
    {dh : PrivateKey → PublicKey → SharedKey} {events all : List (Event (Call Callback))}
    (h : OnCurve pub dh all) (hsub : ∀ event ∈ events, event ∈ all) : OnCurve pub dh events where
  keyPair x share hmem := h.keyPair x share (hsub _ hmem)
  shared own peer gab hmem := h.shared own peer gab (hsub _ hmem)

section Agreed
variable {steps : List (Step (Operator.enclave dep))} {globals : Globals}
  {step : Step (Player.enclave dep)} {operator : Player.Operator} {p : Handshake}
  {pub : PrivateKey → PublicKey} {dh : PrivateKey → PublicKey → SharedKey}

/-- An enclave of the operator that has asked for the report the player expects has been through
the same handshake. -/
theorem session_of_report {connect : Step (Operator.enclave dep)} (valid : connect.Valid)
    (hconnects : connects connect) {target : TargetInfo} {data : ReportData}
    (hreported : .issued (.sgxCreateReport target data) ∈ connect.events)
    (hdh : ∀ a b, dh a (pub b) = dh b (pub a)) (hcurve' : OnCurve pub dh connect.events)
    (hsha : ∀ o, handshakeOf KeyAgreement.operator connect.events = some o →
      CollisionFree dep.tcrypto (p.hashed ++ o.hashed))
    {context : Pointer} {quotingEnclave : TargetInfo} {k : Nat} {mid after : Player.Globals}
    {events : List (Event (Call Player.Callback))} {result : Option (Option Player.Operator)}
    (hexec : Exec (Player.mutualAttestation dep.tcrypto context quotingEnclave k) mid events after
      result)
    (hcurve : OnCurve pub dh events) (hp : handshakeOf KeyAgreement.player events = some p)
    (hdata : data = p.operatorReportData dep.tcrypto) :
    ∃ o, handshakeOf KeyAgreement.operator connect.events = some o ∧
      SameSession dep.tcrypto p o ∧ p.operatorNonce = o.operatorNonce := by
  obtain ⟨context', mid', after', events', found, hexec', hissued, hsub, hextends⟩ :=
    reported_in_handshake valid hconnects hreported
  obtain ⟨o, ho, hbound⟩ := KeyAgreement.bound_of_issued hexec' KeyAgreement.operator_spec hissued
  have ho' : handshakeOf KeyAgreement.operator connect.events = some o := hextends.handshake ho
  have hcurve' : OnCurve pub dh events' := OnCurve.mono hcurve' hsub
  exact ⟨o, ho', KeyAgreement.agreed_of_operatorReportData hexec hexec' hdh hcurve hcurve' hp ho
    (hsha o ho') (hdata.symm.trans hbound)⟩

/-- Where the quote of the operator is one of its enclave, that enclave has been through the same
handshake. -/
theorem same_session (trace : Trace (Operator.enclave dep) (Operator.initial dep) steps globals)
    (trusted : Trusted pub dh steps step operator p) {context : Pointer}
    {quotingEnclave : TargetInfo} {k : Nat} {mid after : Player.Globals}
    {events : List (Event (Call Player.Callback))} {result : Option (Option Player.Operator)}
    (hevents : ∀ event ∈ events, event ∈ step.events)
    (hexec : Exec (Player.mutualAttestation dep.tcrypto context quotingEnclave k) mid events after
      result)
    (hp : handshakeOf KeyAgreement.player events = some p)
    (hdata : operator.reportData = p.operatorReportData dep.tcrypto) :
    ∃ connect ∈ steps, ∃ o, handshakeOf KeyAgreement.operator connect.events = some o ∧
      SameSession dep.tcrypto p o := by
  obtain ⟨connect, hconnect, hconnects, target, hreported⟩ := trusted.quoted
  obtain ⟨o, ho, hsame, -⟩ := session_of_report (trace.valid_of_mem hconnect) hconnects hreported
    trusted.symmetric (trusted.operatorOnCurve connect hconnect)
    (trusted.collisionFree connect hconnect) hexec (OnCurve.mono trusted.onCurve hevents) hp hdata
  exact ⟨connect, hconnect, o, ho, hsame⟩

/-- The broadcast that the player has shown went to a player with its session key, and holds the
slots. -/
theorem broadcast_arrived
    (trace : Trace (Operator.enclave dep) (Operator.initial dep) steps globals)
    {connect : Step (Operator.enclave dep)} (hconnect : connect ∈ steps) {o : Handshake}
    (trusted : Trusted pub dh steps step operator p)
    (ho : handshakeOf KeyAgreement.operator connect.events = some o)
    (hsame : SameSession dep.tcrypto p o) {k : Nat}
    (hprints : Prints dep.build.numPlayers k operator step.events)
    (hsize : broadcastSize globals < 2 ^ 32) :
    ∃ (filled : List Operator.Player) (j : Nat) (registered : Operator.Player),
      filled.length = dep.build.numPlayers ∧ globals.players = filled.map some ∧
      filled[j]? = some registered ∧
      registered.channel.sessionKey = operator.channel.sessionKey ∧
      (k = j + 1 → (printsOf step.events).map Prod.fst =
        (filled.eraseIdx (k - 1)).map shownOf ++
          [(operator.quote.contents, operator.reportData)]) := by
  obtain ⟨msg, htype, hreceived, hprinted⟩ := hprints
  obtain ⟨sender, hsender, channel, hsent, hkey⟩ :=
    trusted.authentic connect hconnect o ho hsame msg hreceived
  obtain ⟨j, registered, hslot, hchannel⟩ :=
    (trace_known trace).told sender hsender _ _ hsent htype
  obtain ⟨filled, hlength, hfilled, hmsg⟩ :=
    QuoteDistribution.broadcast_holds_slots trace htype (mem_logOf_issued hsender hsent)
  have hsome : filled[j]? = some registered := by
    rw [hfilled, List.getElem?_map, Option.map_eq_some_iff] at hslot
    obtain ⟨other, hother, hsame⟩ := hslot
    rwa [Option.some.inj hsame] at hother
  have htotal := QuoteDistribution.broadcastSize_filled hfilled
  have hpayload : msg.payload = QuotesBroadcast.encode
      (filled.map fun player => (player.reportData, player.quote.contents)) := by
    have hpayload : msg.payload = (Message.ofPayload msgPlayersQuotesBroadcast _).payload :=
      congrArg Message.payload hmsg
    rw [hpayload]
    exact Message.ofPayload_payload (by omega)
  refine ⟨filled, j, registered, hlength, hfilled, hsome, hchannel ▸ hkey, fun hk => ?_⟩
  have hj := (List.getElem?_eq_some_iff.mp hsome).1
  rw [hprinted, ← hlength, presented_slots hpayload (by omega) (by omega), List.map_map]
  exact List.map_id _

end Agreed

/-- A player has the slot of its id if and only if that id has arrived. -/
theorem slot_of_id (dep : Deployment) {steps : List (Step (Operator.enclave dep))}
    {globals : Globals} (trace : Trace (Operator.enclave dep) (Operator.initial dep) steps globals)
    {step : Step (Player.enclave dep)} (valid : step.Valid) {context : Pointer} {k : Nat}
    (hop : step.op = Player.Ecall.ecallConnectToOperator context k)
    (hresult : step.result = some (0 : Int32)) {operator : Player.Operator}
    (hoperator : step.after.operator = some operator) {p : Handshake}
    (hp : handshakeOf KeyAgreement.player step.events = some p)
    {pub : PrivateKey → PublicKey} {dh : PrivateKey → PublicKey → SharedKey}
    (trusted : Trusted pub dh steps step operator p) (hsize : broadcastSize globals < 2 ^ 32) :
    HasSlot dep.build.numPlayers globals step.events operator k ↔ IdArrived steps p.gb k := by
  have htable := (PlayerTable.trace_history trace).table
  have hknown := trace_known trace
  obtain ⟨quotingEnclave, mid, inner, final, handshake, hexec, hinner, hview, hwhole, hholds⟩ :=
    connected_handshake valid hop hresult hoperator
  cases hwhole.symm.trans hp
  have hkey := hholds.sessionKey
  obtain ⟨connect, hconnect, o, ho, hsame⟩ :=
    same_session trace trusted hinner hexec hview hholds.reportData
  obtain ⟨before, op, events, after, result⟩ := step
  cases hop
  cases hresult
  obtain ⟨other, hother, hprints⟩ :=
    Exec.taped valid (QuoteDistribution.ecallConnectToOperator_prints dep context k) rfl
  cases hother.symm.trans hoperator
  obtain ⟨filled, j, registered, hlength, hfilled, hsome, hregistered, hshown⟩ :=
    broadcast_arrived trace hconnect trusted ho hsame hprints hsize
  -- Whoever has the session key was admitted under the id that arrived.
  have hadmitted : ∀ (i : Nat) (player : Operator.Player),
      globals.players[i]? = some (some player) →
      player.channel.sessionKey = operator.channel.sessionKey →
      ∃ connect ∈ steps, ∃ handshake msg,
        handshakeOf KeyAgreement.operator connect.events = some handshake ∧
        handshake.gb = p.gb ∧ (viewOf connect.events).received = some msg ∧
        (Syn.decode msg).id = i + 1 := by
    intro i player hslot hplayer
    obtain ⟨admitting, hadmitting, -, admitted, msg, hadmitted, hmsg, hid, hadmittedKey⟩ :=
      hknown.admitted i player hslot
    have hkeys : admitted.sessionKey dep.tcrypto = p.sessionKey dep.tcrypto := by
      rw [hadmittedKey, hkey] at hplayer
      exact Option.some.inj hplayer
    have hgb := trusted.keys admitting hadmitting admitted hadmitted hkeys
    exact ⟨admitting, hadmitting, admitted, msg, hadmitted, hgb, hmsg,
      hid.symm.trans (htable.ids i player hslot).1⟩
  constructor
  · intro hslot
    obtain ⟨hk, filled', registered', -, hfilled', hslot', hkey', -⟩ := hslot
    have hslot : globals.players[k - 1]? = some (some registered') := by
      rw [hfilled', List.getElem?_map, hslot']
      rfl
    obtain ⟨admitting, hadmitting, handshake, msg, hhandshake, hgb, hmsg, hid⟩ :=
      hadmitted (k - 1) registered' hslot hkey'
    exact ⟨admitting, hadmitting, handshake, msg, hhandshake, hgb, hmsg, by omega⟩
  · intro harrived
    obtain ⟨arriving, harriving, handshake, msg, hhandshake, hgb, hmsg, hid⟩ := harrived
    have hslot : globals.players[j]? = some (some registered) := by
      rw [hfilled, List.getElem?_map, hsome]
      rfl
    obtain ⟨admitting, hadmitting, admitted, msg', hadmitted, hgb', hmsg', hid'⟩ :=
      hadmitted j registered hslot hregistered
    have hstep := trusted.fresh arriving harriving admitting hadmitting _ _ hhandshake hadmitted
      (hgb.trans hgb'.symm)
    rw [hstep] at hmsg
    cases hmsg.symm.trans hmsg'
    have hk : k = j + 1 := hid.symm.trans hid'
    refine ⟨by omega, filled, registered, hlength, hfilled, ?_, hregistered, hshown hk⟩
    rw [hk, Nat.add_sub_cancel]
    exact hsome

end Slots

section Examples
open PlayerTable (connects)

/-- A point of the curve, in the byte order of the SGX library. -/
def point (x y : Nat) : PublicKey := ⟨leBytes 32 x ++ leBytes 32 y, by simp⟩

/-- The first multiples of the generator: the shares of the private keys one to four. -/
def multiple : Nat → PublicKey
  | 1 => KeyAgreement.generator
  | 2 => point 0x7cf27b188d034f7e8a52380304b51ac3c08969e277f21b35a60b48fc47669978
      0x07775510db8ed040293d9ac69f7430dbba7dade63ce982299e04b79d227873d1
  | 3 => point 0x5ecbe4d1a6330a44c8f7ef951d4bf165e6c6b721efada985fb41661bc6e7fd6c
      0x8734640c4998ff7e374b06ce1a64a2ecd82ab036384fb83d9a79b127a27d5032
  | 4 => point 0xe2534a3532d08fbba02dde659ee62bd0031fe2db785596ef509302446b030852
      0xe0f1575a4c633cc719dfee5fda862d764efc96c3f30ee0055c42c23f184ed8c6
  | _ => FixedBytes.zero 64

/-- The coordinates of the two products that are taken. -/
def abscissa : Nat → SharedKey
  | 2 => ⟨leBytes 32 0x7cf27b188d034f7e8a52380304b51ac3c08969e277f21b35a60b48fc47669978,
      leBytes_length 32 _⟩
  | 12 => ⟨leBytes 32 0x741dd5bda817d95e4626537320e5d55179983028b2f82c99d500c5ee8624e3c4,
      leBytes_length 32 _⟩
  | _ => FixedBytes.zero 32

def privateKey (n : Nat) : PrivateKey := ⟨leBytes 32 n, leBytes_length 32 n⟩

def exponent (key : PrivateKey) : Nat := if leValue key.val ≤ 4 then leValue key.val else 0

def logarithm (share : PublicKey) : Nat :=
  ((List.range 5).find? fun n => multiple n = share).getD 0

def curvePub (key : PrivateKey) : PublicKey := multiple (exponent key)

def curveDh (own : PrivateKey) (peer : PublicKey) : SharedKey :=
  abscissa (exponent own * logarithm peer)

theorem curveDh_symmetric (a b : PrivateKey) : curveDh a (curvePub b) = curveDh b (curvePub a) := by
  have hlogarithm : ∀ n ≤ 4, logarithm (multiple n) = n := by decide +kernel
  have hexponent : ∀ key, exponent key ≤ 4 := by
    intro key
    unfold exponent
    split
    · assumption
    · omega
  rw [curveDh, curveDh, curvePub, curvePub, hlogarithm _ (hexponent a), hlogarithm _ (hexponent b),
    Nat.mul_comm]

def bigEndian (length n : Nat) : FixedBytes length :=
  ⟨(leBytes length n).reverse, by simp⟩

/-- The digests and tags of the byte strings that occur. -/
def curveTcrypto : Tcrypto where
  sha256 input := bigEndian 32 <|
    match input.head? with
    | some 1 => 0x39ed86d508c92908936f7fd156476cd2aa2fc132d2579a2c36e0dcd2e67d76e5
    | some 2 => 0x93671295c5f16d611f9a29e27588572e11527a1b8cb4dc555f20c9d672ca998f
    | some 3 => 0x27b6d038901fc22f1ff82a88596f23a92fe6154f7e5ef5ed1c488c732a43de0e
    | _ => 0xf9eaea8af345384368eafb086f4462b1370d74eab687fc1a4b5eb5aa963e533e
  cmac128 key input := bigEndian 16 <|
    if input = (abscissa 2).val then 0x28dbe0936db1a4b2a6b32d15ba3ce1e1
    else if input = (abscissa 12).val then 0x7377c4c887326941ba94a12dd7f09b97
    else if key = bigEndian 16 0x28dbe0936db1a4b2a6b32d15ba3ce1e1 then
      0xc70bff48233299986dffa088592577be
    else 0xc0bb55f3e1a502b1db010da4248fdeab

def twoPlayers : Deployment :=
  { zeroDeployment with
    build := { zeroDeployment.build with numPlayers := 2 }
    tcrypto := curveTcrypto }

def nonceOf (n : UInt8) : Blocks.Digest := ⟨List.replicate 32 n, List.length_replicate⟩

/-- The handshakes of the two connections: the own private keys of the operator are two and four. -/
def firstHandshake : Handshake := ⟨multiple 1, multiple 2, nonceOf 1, nonceOf 2, abscissa 2⟩
def secondHandshake : Handshake := ⟨multiple 3, multiple 4, nonceOf 3, nonceOf 4, abscissa 12⟩

/-- All that a report and a quote hold here is the report data. -/
def reportOf (data : ReportData) : Report := FixedBytes.fit 432 data.val

def quoteOf (report : Report) : Bytes := report.val.take 64

/-- A host on which the key pairs are on the curve and the quotes hold the reports. -/
def curveHost {Callback : Type} (nonce key : Nat → Nat)
    (receive : Nat → ChannelRef → ReceivedMessage) {β : Type} (time : Nat) : Call Callback β → Option β
  | .sgxReadRand size =>
    some (some ⟨List.replicate size (UInt8.ofNat (nonce time)), List.length_replicate⟩)
  | .sgxEcc256CreateKeyPair =>
    some (some (privateKey (key time), curvePub (privateKey (key time))))
  | .sgxEcc256ComputeSharedDhkey own peer => some (some (curveDh own peer))
  | .sgxCreateReport _ data => some (some (reportOf data))
  | .ocallQuoteMe report => some (0, [⟨quoteOf report, some 1⟩])
  | c => obligingHost (fun time channel => some (receive time channel)) (fun _ => 0) time c

theorem ofPayload_fits (msgType : Nat) (payload : Bytes) :
    (Message.ofPayload msgType payload).payload.length < 2 ^ 32 := by
  rw [Message.ofPayload, List.length_take]
  omega

def arriving (msgType : Nat) (payload : Bytes) (htype : msgType < msgTypeCount) : ReceivedMessage :=
  (Message.ofPayload msgType payload).received htype (ofPayload_fits msgType payload)

def playerQuote (handshake : Handshake) : Bytes :=
  quoteOf (reportOf (handshake.playerReportData curveTcrypto))

def operatorQuote (handshake : Handshake) : Bytes :=
  quoteOf (reportOf (handshake.operatorReportData curveTcrypto))

/-- What the players send, the ids in the SYNs apart. -/
def playersMessages (firstId secondId time : Nat) (channel : ChannelRef) : ReceivedMessage :=
  match channel.sessionKey with
  | none =>
    if time < 30 then
      arriving msgAttestationSyn (Syn.encode ⟨multiple 1, firstId, nonceOf 1⟩) (by decide)
    else arriving msgAttestationSyn (Syn.encode ⟨multiple 3, secondId, nonceOf 3⟩) (by decide)
  | some key =>
    if time < 90 then
      if key = firstHandshake.sessionKey curveTcrypto then
        arriving msgAttestationAck (playerQuote firstHandshake) (by decide)
      else arriving msgAttestationAck (playerQuote secondHandshake) (by decide)
    else arriving msgPlayersQuotesOk [] (by decide)

def connectSteps (firstId secondId : Nat) : List (Step (Operator.enclave twoPlayers)) :=
  playRun (Operator.enclave twoPlayers)
    (curveHost (fun time => if time < 30 then 2 else 4) (fun time => if time < 30 then 2 else 4)
      (playersMessages firstId secondId)) 0 (Operator.initial twoPlayers)
    [.ecallConnectToPlayer 1, .ecallConnectToPlayer 2]

/-- The quotes of the two players, in the order of the slots. -/
def slotQuotes (firstId : Nat) : List (ReportData × Bytes) :=
  let first := (firstHandshake.playerReportData curveTcrypto, playerQuote firstHandshake)
  let second := (secondHandshake.playerReportData curveTcrypto, playerQuote secondHandshake)
  if firstId = 1 then [first, second] else [second, first]

/-- What the operator sends to the first player. -/
def operatorMessages (firstId time : Nat) (channel : ChannelRef) : ReceivedMessage :=
  match channel.sessionKey with
  | none =>
    arriving msgAttestationSynack
      (Synack.encode ⟨multiple 2, nonceOf 2, operatorQuote firstHandshake⟩) (by decide)
  | some _ =>
    if time < 50 then
      arriving msgPlayersQuotesBroadcast (QuotesBroadcast.encode (slotQuotes firstId)) (by decide)
    else arriving msgSetupComplete [] (by decide)

/-- The first player, which is started with the id one. -/
def playerStep (firstId : Nat) : Step (Player.enclave twoPlayers) :=
  playStep (Player.enclave twoPlayers)
    (curveHost (fun _ => 1) (fun _ => 1) (operatorMessages firstId)) 0 Player.initial
    (.ecallConnectToOperator 1 1)

def playerResult (firstId : Nat) : Option Int32 := (playerStep firstId).result

def connectedState (firstId secondId : Nat) : Operator.Globals :=
  lastState (Operator.enclave twoPlayers) (Operator.initial twoPlayers)
    (connectSteps firstId secondId)

/-- The data of the reports asked for. -/
def reportedIn (events : List (Event (Call Operator.Callback))) : List ReportData :=
  events.filterMap fun
    | .issued (.sgxCreateReport _ data) => some data
    | _ => none

theorem mem_reportedIn {events : List (Event (Call Operator.Callback))} {data : ReportData}
    (h : data ∈ reportedIn events) : ∃ target, .issued (.sgxCreateReport target data) ∈ events := by
  obtain ⟨event, hevent, hdata⟩ := List.mem_filterMap.mp h
  cases event with
  | answered c answer => cases hdata
  | issued c =>
    cases c with
    | sgxCreateReport target other =>
      cases hdata
      exact ⟨target, hevent⟩
    | _ => cases hdata

/-- What arrives on this channel has been sent with the same key. -/
def deliveredOn (channel : ChannelRef) (arrived : List (ChannelRef × ReceivedMessage))
    (sent : List (Message × ChannelRef)) : Bool :=
  arrived.all fun (other, msg) => other ≠ channel ||
    sent.any fun (message, destination) =>
      message = msg.toMessage && destination.sessionKey = channel.sessionKey

/-- What is computed of the two runs. -/
structure Played (firstId secondId : Nat) (operator : Player.Operator) : Prop where
  finished : (connectSteps firstId secondId).all fun step => step.result.isSome
  handshakes : (connectSteps firstId secondId).map
    (fun step => handshakeOf KeyAgreement.operator step.events) =
      [some firstHandshake, some secondHandshake]
  handshake : handshakeOf KeyAgreement.player (playerStep firstId).events = some firstHandshake
  reported : (connectSteps firstId secondId).any fun step =>
    connects step && (reportedIn step.events).contains operator.reportData
  delivered : deliveredOn operator.channel (arrivedIn (playerStep firstId).events)
    (sentIn (eventsOf (connectSteps firstId secondId)))

theorem onCurve_play {Callback σ α : Type} {nonce key : Nat → Nat}
    {receive : Nat → ChannelRef → ReceivedMessage} {time : Nat} {p : Code Callback σ α}
    {state : σ} : OnCurve curvePub curveDh (play (curveHost nonce key receive) time p state).1 where
  keyPair x share h := by
    obtain ⟨time, hanswer⟩ := play_answered h
    cases hanswer
    rfl
  shared own peer gab h := by
    obtain ⟨time, hanswer⟩ := play_answered h
    cases hanswer
    rfl

theorem onCurve_connectSteps {firstId secondId : Nat} {connect : Step (Operator.enclave twoPlayers)}
    (h : connect ∈ connectSteps firstId secondId) : OnCurve curvePub curveDh connect.events := by
  have hanswered : ∀ {β : Type} (c : Call Operator.Callback β) (answer : β),
      .answered c answer ∈ connect.events →
        .host (.answered c answer) ∈ logOf (connectSteps firstId secondId) :=
    fun c answer hmem => List.mem_flatMap.mpr ⟨connect, h, by simp [Step.log, hmem]⟩
  constructor
  · intro x share hmem
    obtain ⟨time, hanswer⟩ := playRun_answered (hanswered _ _ hmem)
    cases hanswer
    rfl
  · intro own peer gab hmem
    obtain ⟨time, hanswer⟩ := playRun_answered (hanswered _ _ hmem)
    cases hanswer
    rfl

theorem Played.cases {firstId secondId : Nat} {operator : Player.Operator}
    (h : Played firstId secondId operator) {connect : Step (Operator.enclave twoPlayers)}
    (hconnect : connect ∈ connectSteps firstId secondId) {o : Handshake}
    (ho : handshakeOf KeyAgreement.operator connect.events = some o) :
    o = firstHandshake ∨ o = secondHandshake := by
  have hmem := List.mem_map_of_mem (f := fun step : Step (Operator.enclave twoPlayers) =>
    handshakeOf KeyAgreement.operator step.events) hconnect
  rw [h.handshakes, ho] at hmem
  simpa using hmem

theorem Played.trusted {firstId secondId : Nat} {operator : Player.Operator}
    (h : Played firstId secondId operator) :
    Trusted curvePub curveDh (connectSteps firstId secondId) (playerStep firstId) operator
      firstHandshake where
  symmetric := curveDh_symmetric
  onCurve := onCurve_play
  operatorOnCurve _ hconnect := onCurve_connectSteps hconnect
  collisionFree connect hconnect o ho := by
    have hfree : ∀ o ∈ [firstHandshake, secondHandshake],
        CollisionFree curveTcrypto (firstHandshake.hashed ++ o.hashed) := by
      unfold CollisionFree
      decide +kernel
    have hcases := h.cases hconnect ho
    exact hfree o (by simpa using hcases)
  fresh connect hconnect other hother o o' ho ho' hgb := by
    have hinjective : ∀ o ∈ [firstHandshake, secondHandshake],
        ∀ o' ∈ [firstHandshake, secondHandshake], o.gb = o'.gb → o = o' := by decide +kernel
    have hnodup : [some firstHandshake, some secondHandshake].Nodup := by decide +kernel
    have hfirst := h.cases hconnect ho
    have hsecond := h.cases hother ho'
    have hsame := hinjective o (by simpa using hfirst) o' (by simpa using hsecond) hgb
    obtain ⟨i, hi, rfl⟩ := List.getElem_of_mem hconnect
    obtain ⟨j, hj, rfl⟩ := List.getElem_of_mem hother
    rw [← h.handshakes] at hnodup
    have hi' : i < ((connectSteps firstId secondId).map
      fun step => handshakeOf KeyAgreement.operator step.events).length := by simpa using hi
    have hj' : j < ((connectSteps firstId secondId).map
      fun step => handshakeOf KeyAgreement.operator step.events).length := by simpa using hj
    have hequal : ((connectSteps firstId secondId).map
        fun step => handshakeOf KeyAgreement.operator step.events)[i] =
        ((connectSteps firstId secondId).map
          fun step => handshakeOf KeyAgreement.operator step.events)[j] := by
      rw [List.getElem_map, List.getElem_map, ho, ho', hsame]
    obtain rfl : i = j := hnodup.getElem_inj_iff.mp hequal
    rfl
  keys connect hconnect o ho hkey := by
    have hkeys : ∀ o ∈ [firstHandshake, secondHandshake],
        o.sessionKey curveTcrypto = firstHandshake.sessionKey curveTcrypto →
          o.gb = firstHandshake.gb := by decide +kernel
    have hcases := h.cases hconnect ho
    exact hkeys o (by simpa using hcases) hkey
  quoted := by
    obtain ⟨connect, hconnect, hreported⟩ := List.any_eq_true.mp h.reported
    obtain ⟨hconnects, hdata⟩ := Bool.and_eq_true_iff.mp hreported
    exact ⟨connect, hconnect, hconnects, mem_reportedIn (List.contains_iff_mem.mp hdata)⟩
  authentic connect hconnect o ho hsame msg hmsg := by
    have harrived := List.all_eq_true.mp h.delivered _ (mem_arrivedIn.mpr hmsg)
    simp only [ne_eq, not_true_eq_false, decide_false, Bool.false_or] at harrived
    obtain ⟨⟨message, channel⟩, hsent, hsame⟩ := List.any_eq_true.mp harrived
    simp only [Bool.and_eq_true, decide_eq_true_eq] at hsame
    obtain ⟨rfl, hkey⟩ := hsame
    obtain ⟨sender, hsender, hissued⟩ := List.mem_flatMap.mp (mem_sentIn.mp hsent)
    exact ⟨sender, hsender, channel, hissued, hkey⟩

/-- The enclave at the other end, as the first player has it. -/
structure Connected (firstId : Nat) (operator : Player.Operator) : Prop where
  kept : (playerStep firstId).after.operator = some operator
  channel : operator.channel =
    ((ChannelRef.create 1).assignId 0).encrypt (firstHandshake.sessionKey curveTcrypto)
  reportData : operator.reportData = firstHandshake.operatorReportData curveTcrypto
  quote : operator.quote.contents = operatorQuote firstHandshake

theorem connected_of_fields {firstId : Nat}
    (h : (playerStep firstId).after.operator.map
      (fun operator => (operator.channel, operator.reportData, operator.quote.contents)) =
      some (((ChannelRef.create 1).assignId 0).encrypt (firstHandshake.sessionKey curveTcrypto),
        firstHandshake.operatorReportData curveTcrypto, operatorQuote firstHandshake)) :
    ∃ operator, Connected firstId operator := by
  obtain ⟨operator, hoperator, hfields⟩ := Option.map_eq_some_iff.mp h
  obtain ⟨hchannel, hfields⟩ := Prod.mk.inj hfields
  obtain ⟨hdata, hquote⟩ := Prod.mk.inj hfields
  exact ⟨operator, hoperator, hchannel, hdata, hquote⟩

theorem Connected.played {operator : Player.Operator} (h : Connected 1 operator) :
    Played 1 2 operator := by
  have hchannel := h.channel
  have hdata := h.reportData
  constructor
  · decide +kernel
  · decide +kernel
  · decide +kernel
  · rw [hdata]
    decide +kernel
  · rw [hchannel]
    decide +kernel

theorem Connected.swapped {operator : Player.Operator} (h : Connected 2 operator) :
    Played 2 1 operator := by
  have hchannel := h.channel
  have hdata := h.reportData
  constructor
  · decide +kernel
  · decide +kernel
  · decide +kernel
  · rw [hdata]
    decide +kernel
  · rw [hchannel]
    decide +kernel

theorem connectSteps_trace {firstId secondId : Nat}
    (finished : (connectSteps firstId secondId).all fun step => step.result.isSome) :
    Trace (Operator.enclave twoPlayers) (Operator.initial twoPlayers)
      (connectSteps firstId secondId) (connectedState firstId secondId) :=
  .resting (run_playRun (Operator.enclave twoPlayers) _ (Operator.initial twoPlayers) _ finished)

/-- With the ids as they were sent the first player has the first slot. -/
theorem slot_of_id_played : ∃ operator, (playerStep 1).after.operator = some operator ∧
    HasSlot 2 (connectedState 1 2) (playerStep 1).events operator 1 := by
  obtain ⟨operator, hconnected⟩ : ∃ operator, Connected 1 operator :=
    connected_of_fields (by decide +kernel)
  have hplayed := hconnected.played
  have hresult : playerResult 1 = some 0 := by decide +kernel
  have harrived : IdArrived (connectSteps 1 2) firstHandshake.gb 1 := by
    have harrived : (connectSteps 1 2).any (fun connect =>
        handshakeOf KeyAgreement.operator connect.events = some firstHandshake &&
          (viewOf connect.events).received.map (fun msg => (Syn.decode msg).id) = some 1) := by
      decide +kernel
    obtain ⟨connect, hconnect, hboth⟩ := List.any_eq_true.mp harrived
    simp only [Bool.and_eq_true, decide_eq_true_eq] at hboth
    obtain ⟨msg, hmsg, hid⟩ := Option.map_eq_some_iff.mp hboth.2
    exact ⟨connect, hconnect, firstHandshake, msg, hboth.1, rfl, hmsg, hid⟩
  refine ⟨operator, hconnected.kept, ?_⟩
  exact (slot_of_id twoPlayers (connectSteps_trace hplayed.finished)
    (playStep_valid _ _ _ _ _ : (playerStep 1).Valid) rfl hresult hconnected.kept hplayed.handshake
    hplayed.trusted (by decide +kernel)).mpr harrived

/-- With the ids exchanged on the way everything is in order at the first player, and yet it
prints its own quote, as that of the second slot, and not the quote of the player in the first. -/
theorem ids_exchanged : ∃ operator registered,
    (playerStep 2).op = .ecallConnectToOperator 1 1 ∧
    (playerStep 2).result = some (0 : Int32) ∧
    (playerStep 2).after.operator = some operator ∧
    handshakeOf KeyAgreement.player (playerStep 2).events = some firstHandshake ∧
    Trusted curvePub curveDh (connectSteps 2 1) (playerStep 2) operator firstHandshake ∧
    (∀ shown ∈ (printsOf (playerStep 2).events).map Prod.fst,
      shown.1 = shown.2.val) ∧
    ¬ HasSlot 2 (connectedState 2 1) (playerStep 2).events operator 1 ∧
    (connectedState 2 1).players[0]? = some (some registered) ∧
    registered.channel.sessionKey ≠ operator.channel.sessionKey ∧
    shownOf registered ∉ (printsOf (playerStep 2).events).map Prod.fst := by
  obtain ⟨operator, hconnected⟩ : ∃ operator, Connected 2 operator :=
    connected_of_fields (by decide +kernel)
  have hplayed := hconnected.swapped
  have hresult : playerResult 2 = some 0 := by decide +kernel
  have hquotes : ∀ shown ∈ (printsOf (playerStep 2).events).map Prod.fst,
      shown.1 = shown.2.val := by decide +kernel
  have hregistered : (connectedState 2 1).players[0]?.join.map
      (fun registered => (registered.channel.sessionKey, shownOf registered)) =
      some (some (secondHandshake.sessionKey curveTcrypto),
        (playerQuote secondHandshake, secondHandshake.playerReportData curveTcrypto)) := by
    decide +kernel
  obtain ⟨registered, hslot, hfields⟩ := Option.map_eq_some_iff.mp hregistered
  obtain ⟨hkey, hshown⟩ := Prod.mk.inj hfields
  have hslot := Option.join_eq_some_iff.mp hslot
  have hother : registered.channel.sessionKey ≠ operator.channel.sessionKey := by
    rw [hkey, hconnected.channel]
    decide +kernel
  have hescaped : shownOf registered ∉ (printsOf (playerStep 2).events).map Prod.fst := by
    rw [hshown]
    decide +kernel
  refine ⟨operator, registered, rfl, hresult, hconnected.kept, hplayed.handshake,
    hplayed.trusted, hquotes, ?_, hslot, hother, hescaped⟩
  rintro ⟨-, filled, other, -, hfilled, hsome, hsame, -⟩
  rw [hfilled, List.getElem?_map, hsome] at hslot
  cases hslot
  exact hother hsame

end Examples

end Auntie.Guarantees.PlayerSlots
