import Auntie.Guarantees.HandshakeView

/-!
# Key agreement of the two handshakes

The SYN and the SYN/ACK travel in plaintext, and whoever carries them may replace any field.
Each enclave hashes a nonce with the two shares it holds into the report it has quoted, and
hashes the other nonce with them to know what the other side has to quote. When one of the two
comparisons comes out equal, both sides hold the same shares, the same nonce of that direction
and the same session key.
-/

namespace Auntie.Guarantees.KeyAgreement
open Auntie.Source Auntie.Interaction
open Blocks (Digest)

section Agreement
variable {tcrypto : Tcrypto}

/-- No two of the byte strings have the same digest. -/
def CollisionFree (tcrypto : Tcrypto) (strings : List Bytes) : Prop :=
  ∀ x ∈ strings, ∀ y ∈ strings, tcrypto.sha256 x = tcrypto.sha256 y → x = y

/-- Nonce and shares have fixed lengths, so their concatenation determines them. -/
theorem reportDataOf_inj {nonce nonce' : Digest} {ga ga' gb gb' : PublicKey}
    (hsha : tcrypto.sha256 (nonce.val ++ ga.val ++ gb.val) =
      tcrypto.sha256 (nonce'.val ++ ga'.val ++ gb'.val) →
      nonce.val ++ ga.val ++ gb.val = nonce'.val ++ ga'.val ++ gb'.val)
    (h : reportDataOf tcrypto nonce ga gb = reportDataOf tcrypto nonce' ga' gb') :
    nonce = nonce' ∧ ga = ga' ∧ gb = gb' := by
  have hdigest : tcrypto.sha256 (nonce.val ++ ga.val ++ gb.val) =
      tcrypto.sha256 (nonce'.val ++ ga'.val ++ gb'.val) :=
    Subtype.ext (List.append_inj (congrArg Subtype.val h)
      (by rw [(tcrypto.sha256 _).property, (tcrypto.sha256 _).property])).1
  have hstring := hsha hdigest
  obtain ⟨hfront, hgb⟩ := List.append_inj hstring (by simp [nonce.property, nonce'.property,
    ga.property, ga'.property])
  obtain ⟨hnonce, hga⟩ := List.append_inj hfront (by rw [nonce.property, nonce'.property])
  exact ⟨Subtype.ext hnonce, Subtype.ext hga, Subtype.ext hgb⟩

/-- The message received is the one sent. -/
def Delivered (sender receiver : View) : Prop :=
  ∃ msg, sender.sent = some msg ∧ receiver.received.map ReceivedMessage.toMessage = some msg

theorem operator_peer_of_hello {own : PublicKey × Digest} {msg : ReceivedMessage}
    (h : player.hello own msg.toMessage) : operator.peer msg = own := by
  obtain ⟨id, hmsg⟩ := h
  have hpayload : msg.payload = Syn.encode ⟨own.1, id, own.2⟩ := by
    have hsame := congrArg Message.payload hmsg
    rwa [Message.ofPayload_payload (by rw [Syn.encode_length]; decide)] at hsame
  have hga : msg.payload = [] ++ own.1.val ++ (leBytes 4 id ++ own.2.val) := by
    rw [hpayload, Syn.encode, List.append_assoc, List.nil_append]
  have hnonce : msg.payload = (own.1.val ++ leBytes 4 id) ++ own.2.val ++ [] := by
    rw [hpayload, Syn.encode, List.append_nil]
  exact Prod.ext
    (Subtype.ext (ReceivedMessage.read_field hga rfl own.1.property))
    (Subtype.ext (ReceivedMessage.read_field hnonce
      (by rw [List.length_append, own.1.property, leBytes_length]) own.2.property))

/-- The payload may have lost its tail, but no message that is accepted lost share or nonce. -/
theorem player_peer_of_hello {own : PublicKey × Digest} {msg : ReceivedMessage}
    (haccepts : player.accepts msg) (h : operator.hello own msg.toMessage) :
    player.peer msg = own := by
  obtain ⟨quote, hmsg⟩ := h
  have hfields : (own.1.val ++ own.2.val).length = 96 := by
    rw [List.length_append, own.1.property, own.2.property]
  obtain ⟨tail, hpayload⟩ : ∃ tail, msg.payload = own.1.val ++ own.2.val ++ tail := by
    have hsame := congrArg Message.payload hmsg
    have haccepts : 96 ≤ msg.payload.length := haccepts
    rw [hsame, Message.ofPayload, List.length_take] at haccepts
    rw [hsame, Message.ofPayload, Synack.encode, List.take_append, List.take_of_length_le]
    · exact ⟨_, rfl⟩
    · rw [hfields]
      exact (Nat.le_min.mp haccepts).1
  have hgb : msg.payload = [] ++ own.1.val ++ (own.2.val ++ tail) := by
    rw [hpayload, List.append_assoc, List.nil_append]
  exact Prod.ext
    (Subtype.ext (ReceivedMessage.read_field hgb rfl own.1.property))
    (Subtype.ext (ReceivedMessage.read_field hpayload own.1.property own.2.property))

/-- Both sides hold the same shares and derive the same key. -/
def SameSession (tcrypto : Tcrypto) (p o : Handshake) : Prop :=
  p.ga = o.ga ∧ p.gb = o.gb ∧ p.sessionKey tcrypto = o.sessionKey tcrypto

variable {context context' : Pointer} {quotingEnclave : TargetInfo} {id numPlayers : Nat}
  {globals last : Player.Globals} {globals' last' : Operator.Globals}
  {events : List (Event (Call Player.Callback))} {events' : List (Event (Call Operator.Callback))}
  {result : Option (Option Player.Operator)} {result' : Option (Option Operator.Player)}

section Shared
variable {pub : PrivateKey → PublicKey} {dh : PrivateKey → PublicKey → SharedKey}
  (hplayer : Exec (Player.mutualAttestation tcrypto context quotingEnclave id) globals events last
    result)
  (hoperator : Exec (Operator.mutualAttestation tcrypto numPlayers context') globals' events'
    last' result')
  (hdh : ∀ a b, dh a (pub b) = dh b (pub a)) (hcurve : OnCurve pub dh events)
  (hcurve' : OnCurve pub dh events')
include hplayer hoperator hdh hcurve hcurve'

theorem gab_eq_of_shares {p o : Handshake} (hp : handshakeOf player events = some p)
    (ho : handshakeOf operator events' = some o) (hga : p.ga = o.ga) (hgb : p.gb = o.gb) :
    p.gab = o.gab := by
  obtain ⟨a, ga, _, msg2, -, -, -, -, rfl, rfl⟩ := shared_of_handshake hplayer player_spec hcurve hp
  obtain ⟨b, gb, _, msg1, -, -, -, -, rfl, rfl⟩ :=
    shared_of_handshake hoperator operator_spec hcurve' ho
  have hga : pub a = (operator.peer msg1).1 := hga
  have hgb : (player.peer msg2).1 = pub b := hgb
  calc dh a (player.peer msg2).1 = dh a (pub b) := by rw [hgb]
    _ = dh b (pub a) := hdh a b
    _ = dh b (operator.peer msg1).1 := by rw [hga]

theorem sameSession_of_shares {p o : Handshake} (hp : handshakeOf player events = some p)
    (ho : handshakeOf operator events' = some o) (hga : p.ga = o.ga) (hgb : p.gb = o.gb) :
    SameSession tcrypto p o := by
  have hgab := gab_eq_of_shares hplayer hoperator hdh hcurve hcurve' hp ho hga hgb
  exact ⟨hga, hgb, by rw [Handshake.sessionKey, Handshake.sessionKey, hga, hgb, hgab]⟩

/-- What was delivered as it was sent is held as it was sent. -/
theorem eq_of_delivered {p o : Handshake} (hp : handshakeOf player events = some p)
    (ho : handshakeOf operator events' = some o)
    (hsyn : Delivered (viewOf events) (viewOf events'))
    (hsynack : Delivered (viewOf events') (viewOf events)) : p = o := by
  obtain ⟨a, ga, nonce, msg2, hmsg2, haccepts, hkeyPair, hnonce, -, hpEq⟩ :=
    shared_of_handshake hplayer player_spec hcurve hp
  obtain ⟨b, gb, nonce', msg1, hmsg1, -, hkeyPair', hnonce', -, hoEq⟩ :=
    shared_of_handshake hoperator operator_spec hcurve' ho
  have hpeer : operator.peer msg1 = (ga, nonce) := by
    obtain ⟨msg, hsent, hreceived⟩ := hsyn
    obtain ⟨_, _, _, hkeyPair₂, hnonce₂, hhello⟩ := saidHello hplayer player_spec hsent
    cases hkeyPair.symm.trans hkeyPair₂
    cases hnonce.symm.trans hnonce₂
    rw [hmsg1] at hreceived
    cases hreceived
    exact operator_peer_of_hello hhello
  have hpeer' : player.peer msg2 = (gb, nonce') := by
    obtain ⟨msg, hsent, hreceived⟩ := hsynack
    obtain ⟨_, _, _, hkeyPair₂, hnonce₂, hhello⟩ := saidHello hoperator operator_spec hsent
    cases hkeyPair'.symm.trans hkeyPair₂
    cases hnonce'.symm.trans hnonce₂
    rw [hmsg2] at hreceived
    cases hreceived
    exact player_peer_of_hello haccepts hhello
  rw [hpeer'] at hpEq
  rw [hpeer] at hoEq
  have hgab := gab_eq_of_shares hplayer hoperator hdh hcurve hcurve' hp ho
    (by rw [hpEq, hoEq]; rfl) (by rw [hpEq, hoEq]; rfl)
  rw [hpEq, hoEq] at hgab ⊢
  exact congrArg (Handshake.mk ga gb nonce nonce') hgab

theorem agreed_of_operatorReportData {p o : Handshake} (hp : handshakeOf player events = some p)
    (ho : handshakeOf operator events' = some o) (hsha : CollisionFree tcrypto (p.hashed ++ o.hashed))
    (hdata : p.operatorReportData tcrypto = o.operatorReportData tcrypto) :
    SameSession tcrypto p o ∧ p.operatorNonce = o.operatorNonce := by
  obtain ⟨hnonce, hga, hgb⟩ := reportDataOf_inj
    (hsha _ (by simp [Handshake.hashed]) _ (by simp [Handshake.hashed])) hdata
  exact ⟨sameSession_of_shares hplayer hoperator hdh hcurve hcurve' hp ho hga hgb, hnonce⟩

theorem agreed_of_playerReportData {p o : Handshake} (hp : handshakeOf player events = some p)
    (ho : handshakeOf operator events' = some o) (hsha : CollisionFree tcrypto (p.hashed ++ o.hashed))
    (hdata : o.playerReportData tcrypto = p.playerReportData tcrypto) :
    SameSession tcrypto p o ∧ p.playerNonce = o.playerNonce := by
  obtain ⟨hnonce, hga, hgb⟩ := reportDataOf_inj
    (hsha _ (by simp [Handshake.hashed]) _ (by simp [Handshake.hashed])) hdata
  exact ⟨sameSession_of_shares hplayer hoperator hdh hcurve hcurve' hp ho hga.symm hgb.symm,
    hnonce.symm⟩

/-- For everything that may have replaced the messages: what a run binds, expects and encrypts
with is what its handshake determines, and a comparison of report data that comes out equal in
one direction settles shares, session key and the nonce of that direction. -/
theorem key_agreement :
    Uses tcrypto player events
      (result.join.map fun operator => (operator.reportData, operator.channel)) ∧
    Uses tcrypto operator events'
      (result'.join.map fun player => (player.reportData, player.channel)) ∧
    ∀ p o, handshakeOf player events = some p → handshakeOf operator events' = some o →
      CollisionFree tcrypto (p.hashed ++ o.hashed) →
      (p.operatorReportData tcrypto = o.operatorReportData tcrypto →
        SameSession tcrypto p o ∧ p.operatorNonce = o.operatorNonce) ∧
      (o.playerReportData tcrypto = p.playerReportData tcrypto →
        SameSession tcrypto p o ∧ p.playerNonce = o.playerNonce) ∧
      (Delivered (viewOf events) (viewOf events') → Delivered (viewOf events') (viewOf events) →
        p = o) := by
  refine ⟨?_, ?_, fun p o hp ho hsha => ⟨fun hdata => ?_, fun hdata => ?_, fun hsyn hsynack => ?_⟩⟩
  · refine ⟨fun _ _ => bound_of_issued hplayer player_spec,
      fun _ => keyed_of_used hplayer player_spec, fun data channel hreturned => ?_⟩
    obtain ⟨found, hresult, hpair⟩ := Option.map_eq_some_iff.mp hreturned
    cases hpair
    rw [Option.join_eq_some_iff.mp hresult] at hplayer
    have hpost := hplayer.returned player_spec found rfl
    rwa [observe_follows] at hpost
  · refine ⟨fun _ _ => bound_of_issued hoperator operator_spec,
      fun _ => keyed_of_used hoperator operator_spec, fun data channel hreturned => ?_⟩
    obtain ⟨found, hresult, hpair⟩ := Option.map_eq_some_iff.mp hreturned
    cases hpair
    rw [Option.join_eq_some_iff.mp hresult] at hoperator
    have hpost := hoperator.returned operator_spec found rfl
    rwa [observe_follows] at hpost
  · exact agreed_of_operatorReportData hplayer hoperator hdh hcurve hcurve' hp ho hsha hdata
  · exact agreed_of_playerReportData hplayer hoperator hdh hcurve hcurve' hp ho hsha hdata
  · exact eq_of_delivered hplayer hoperator hdh hcurve hcurve' hp ho hsyn hsynack

end Shared

end Agreement

section Faithful

/-- The coordinates of the generator of the curve, in the byte order of the SGX library: the
share of the private key one. -/
def generator : PublicKey :=
  ⟨leBytes 32 0x6b17d1f2e12c4247f8bce6e563a440f277037d812deb33a0f4a13945d898c296 ++
    leBytes 32 0x4fe342e2fe1a7f9b8ee7eb4a7c0f9e162bce33576b315ececbb6406837bf51f5, by
    simp⟩

def generatorX : SharedKey := generator.slice 0 32 (by decide)

def privateOne : PrivateKey := ⟨leBytes 32 1, leBytes_length 32 1⟩

/-- The digests and tags of the byte strings that occur where both private keys are one. -/
def generatorTcrypto : Tcrypto where
  sha256 input :=
    if input.head? = some 1 then
      ⟨(leBytes 32 0xb8d8e7637dd8fee3f0fed2e0f0693cf5bc9649cd864bb44f9ed0ca856bbc0921).reverse, by
        simp⟩
    else
      ⟨(leBytes 32 0x51bc1a7b8c2d033d2e4c90dc0cad3ecaa05da7903b048819547d151be073ca47).reverse, by
        simp⟩
  cmac128 _ input :=
    if input.length = 32 then ⟨(leBytes 16 0x957d8d883a87e0032ac4cdf326f0c6ef).reverse, by simp⟩
    else ⟨(leBytes 16 0xa0c362e2ffa9441eb04f9702057d9784).reverse, by simp⟩

def handshakeHost {Callback : Type} (nonce : UInt8) (receive : ChannelRef → Option ReceivedMessage)
    {β : Type} (time : Nat) : Call Callback β → Option β
  | .sgxReadRand size => some (some ⟨List.replicate size nonce, List.length_replicate⟩)
  | .sgxEcc256CreateKeyPair => some (some (privateOne, generator))
  | .sgxEcc256ComputeSharedDhkey _ _ => some (some generatorX)
  | c => obligingHost (fun _ => receive) (fun _ => 0) time c

def faithfulHandshake : Handshake where
  ga := generator
  gb := generator
  operatorNonce := ⟨List.replicate 32 1, List.length_replicate⟩
  playerNonce := ⟨List.replicate 32 2, List.length_replicate⟩
  gab := generatorX

def faithfulSyn : Message :=
  .ofPayload msgAttestationSyn (Syn.encode ⟨generator, 1, faithfulHandshake.operatorNonce⟩)

def faithfulSynack : Message :=
  .ofPayload msgAttestationSynack (Synack.encode ⟨generator, faithfulHandshake.playerNonce, [1]⟩)

def playerPlayed : List (Event (Call Player.Callback)) × Player.Globals ×
    Option (Option Player.Operator) :=
  play (handshakeHost 1 fun _ => some (faithfulSynack.received (by decide) (by decide))) 0
    (Player.mutualAttestation generatorTcrypto 1 (FixedBytes.zero 512) 1) {}

def operatorPlayed : List (Event (Call Operator.Callback)) × Operator.Globals ×
    Option (Option Operator.Player) :=
  play (handshakeHost 2 fun channel =>
      if channel.sessionKey.isNone then some (faithfulSyn.received (by decide) (by decide))
      else some (Message.received (.ofPayload msgAttestationAck [1]) (by decide) (by decide))) 0
    (Operator.mutualAttestation generatorTcrypto 1 1) { players := [none] }

theorem onCurve_handshakeHost {Callback σ α : Type} {nonce : UInt8}
    {receive : ChannelRef → Option ReceivedMessage} {p : Code Callback σ α} {state : σ} :
    OnCurve (fun _ => generator) (fun _ _ => generatorX)
      (play (handshakeHost nonce receive) 0 p state).1 where
  keyPair x share h := by
    obtain ⟨time, hanswer⟩ := play_answered h
    cases hanswer
    rfl
  shared own peer gab h := by
    obtain ⟨time, hanswer⟩ := play_answered h
    cases hanswer
    rfl

theorem key_agreement_played : ∃ p o, handshakeOf player playerPlayed.1 = some p ∧
    handshakeOf operator operatorPlayed.1 = some o ∧ p = o := by
  have hp : handshakeOf player playerPlayed.1 = some faithfulHandshake := by decide +kernel
  have ho : handshakeOf operator operatorPlayed.1 = some faithfulHandshake := by decide +kernel
  have hsha : CollisionFree generatorTcrypto
      (faithfulHandshake.hashed ++ faithfulHandshake.hashed) := by
    unfold CollisionFree
    decide +kernel
  have hplayer : Exec _ _ playerPlayed.1 playerPlayed.2.1 playerPlayed.2.2 := exec_play _ _ _ _
  have hoperator : Exec _ _ operatorPlayed.1 operatorPlayed.2.1 operatorPlayed.2.2 :=
    exec_play _ _ _ _
  have hsyn : Delivered (viewOf playerPlayed.1) (viewOf operatorPlayed.1) :=
    ⟨faithfulSyn, by decide +kernel, by decide +kernel⟩
  have hsynack : Delivered (viewOf operatorPlayed.1) (viewOf playerPlayed.1) :=
    ⟨faithfulSynack, by decide +kernel, by decide +kernel⟩
  have hagree := (key_agreement hplayer hoperator (fun _ _ => rfl) onCurve_handshakeHost
    onCurve_handshakeHost).2.2 _ _ hp ho hsha
  exact ⟨_, _, hp, ho, hagree.2.2 hsyn hsynack⟩

end Faithful

end Auntie.Guarantees.KeyAgreement
