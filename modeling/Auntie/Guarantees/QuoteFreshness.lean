import Auntie.Guarantees.PlayerTable
import Auntie.Source.Player.Entry

/-!
# Freshness of the quotes

The own quote passes through a global variable: `ecall_quote_me_callback` stores it while the
enclave waits inside `ocall_quote_me`, and the handshake copies it into its message and drops it.
That the quote was made for this handshake rests on nothing being stored when it begins. A host
that stores a quote and then fails the OCALL, or stores an empty one, ends the handshake before
the quote is dropped; the next handshake finds it, and sends it if the host does not call back.
-/

namespace Auntie.Guarantees.QuoteFreshness
open Auntie.Source Auntie.Interaction
open Blocks (Digest)

section Statement
variable {Callback : Type}

/-- The messages that carry the quote of their sender. -/
def Quoted (msg : Message) : Prop :=
  msg.msgType = msgAttestationSynack ∨ msg.msgType = msgAttestationAck

/-- The message has been made with this quote. -/
def Carries (msg : Message) (quote : Bytes) : Prop :=
  (∃ gb nonce, msg = .ofPayload msgAttestationSynack (Synack.encode ⟨gb, nonce, quote⟩)) ∨
    msg = .ofPayload msgAttestationAck quote

/-- What `ocall_quote_me` returned, and the callbacks the host made inside. -/
abbrev Quoting := Int32 × List QuoteCallback

def quotings {β : Type} : Call Callback β → β → List Quoting
  | .ocallQuoteMe _, quoting => [quoting]
  | _, _ => []

def quotingsIn (events : List (Event (Call Callback))) : List Quoting :=
  events.flatMap fun
    | .issued _ => []
    | .answered c answer => quotings c answer

/-- One of the callbacks has stored the quote of the message. -/
def Delivered (known : List Quoting) (msg : Message) : Prop :=
  ∃ quoting ∈ known, ∃ callback ∈ quoting.2, callback.stash.isSome ∧ Carries msg callback.quote

/-- One attempt: nothing is stored when it begins and when it ends, a quote that is sent was
delivered before within the attempt, and a host that did not call back gets no quote sent and
an error. -/
structure Fresh (before : Stash) (events : List (Event (Call Callback))) (after : Stash)
    (result : Option Int32) : Prop where
  begun : before.quote = none
  delivered : ∀ earlier later msg channel,
    events = earlier ++ .issued (.auntieMsgSend msg channel) :: later → Quoted msg →
      Delivered (quotingsIn earlier) msg
  detected : (0, []) ∈ quotingsIn events →
    (∀ msg channel, .issued (.auntieMsgSend msg channel) ∈ events → ¬ Quoted msg) ∧
      ∀ ret, result = some ret → ret ≠ 0
  dropped : result.isSome → after.quote = none

/-- A quote that the last callback could store is taken: the OCALL succeeded, and the quote is
not empty. -/
def Taken (quoting : Quoting) : Prop :=
  ∀ callback ∈ quoting.2.getLast?, callback.stash.isSome → quoting.1 = 0 ∧ callback.quote ≠ []

end Statement

section Stash

/-- What is stored after the callbacks, if nothing was before. -/
theorem foldl_put_quote {stash : Stash} (hstash : stash.quote = none)
    (callbacks : List QuoteCallback) : (callbacks.foldl Stash.put stash).quote =
      callbacks.getLast?.bind fun callback => callback.stash.map (⟨·, callback.quote⟩) := by
  rcases List.eq_nil_or_concat callbacks with rfl | ⟨earlier, callback, rfl⟩
  · exact hstash
  · rw [List.concat_eq_append, List.foldl_append, List.getLast?_append]
    cases hcallback : callback.stash with
    | none => simp [Stash.put, hcallback]
    | some address => simp [Stash.put, hcallback]

/-- The size is that of the quote. -/
theorem foldl_put_size {stash : Stash} (hstash : stash.quote = none)
    (callbacks : List QuoteCallback) {quote : Buffer}
    (hquote : (callbacks.foldl Stash.put stash).quote = some quote) :
    (callbacks.foldl Stash.put stash).size = quote.contents.length := by
  rcases List.eq_nil_or_concat callbacks with rfl | ⟨earlier, callback, rfl⟩
  · cases hstash.symm.trans hquote
  · rw [List.concat_eq_append, List.foldl_append, List.foldl_cons, List.foldl_nil] at hquote ⊢
    cases hcallback : callback.stash with
    | none => simp [Stash.put, hcallback] at hquote
    | some address =>
      simp only [Stash.put, hcallback, Option.some.injEq] at hquote ⊢
      rw [← hquote]

variable {stash : Stash} {ret : Int32} {callbacks : List QuoteCallback}

theorem stored_last {quote : Buffer} (hstash : stash.quote = none)
    (hquote : (callbacks.foldl Stash.put stash).quote = some quote) :
    ∃ callback ∈ callbacks.getLast?, callback.stash = some quote.address ∧
      callback.quote = quote.contents := by
  rw [foldl_put_quote hstash] at hquote
  obtain ⟨callback, hlast, hmap⟩ := Option.bind_eq_some_iff.mp hquote
  obtain ⟨address, haddress, rfl⟩ := Option.map_eq_some_iff.mp hmap
  exact ⟨callback, hlast, haddress, rfl⟩

/-- Where the handshake ends before it takes the quote, nothing is stored only if the last
callback failed. -/
theorem taken_of_left (hstash : stash.quote = none)
    (hleft : ret ≠ 0 ∨ (callbacks.foldl Stash.put stash).get = none) :
    (callbacks.foldl Stash.put stash).quote = none ↔ Taken (ret, callbacks) := by
  constructor
  · intro hnone callback hlast hstored
    rw [foldl_put_quote hstash, Option.mem_def.mp hlast] at hnone
    obtain ⟨address, haddress⟩ := Option.isSome_iff_exists.mp hstored
    rw [Option.bind_some, haddress] at hnone
    cases hnone
  · intro htaken
    cases hquote : (callbacks.foldl Stash.put stash).quote with
    | none => rfl
    | some quote =>
      obtain ⟨callback, hlast, haddress, hcontents⟩ := stored_last hstash hquote
      obtain ⟨hret, hne⟩ := htaken callback hlast (by rw [haddress]; rfl)
      rcases hleft with hleft | hleft
      · exact absurd hret hleft
      · have hsize := foldl_put_size hstash callbacks hquote
        rw [hcontents] at hne
        have hpositive : 0 < quote.contents.length := List.length_pos_iff.mpr hne
        rw [Stash.get, if_neg (by omega), hquote] at hleft
        cases hleft

/-- A quote that the handshake finds is the last one stored. -/
theorem found_last {quote : Buffer} (hstash : stash.quote = none)
    (hfound : (callbacks.foldl Stash.put stash).get = some quote) :
    Taken (0, callbacks) ∧
      ∃ callback ∈ callbacks, callback.stash.isSome ∧ callback.quote = quote.contents := by
  rw [Stash.get] at hfound
  split at hfound
  · cases hfound
  · rename_i hsize
    obtain ⟨callback, hlast, haddress, hcontents⟩ := stored_last hstash hfound
    have hlength := foldl_put_size hstash callbacks hfound
    constructor
    · intro other hother _
      obtain rfl : callback = other := Option.some.inj (hlast.symm.trans hother)
      refine ⟨rfl, ?_⟩
      rw [hcontents]
      apply List.ne_nil_of_length_pos
      omega
    · exact ⟨callback, List.mem_of_getLast? hlast, by rw [haddress]; rfl, hcontents⟩

end Stash

section Watch
variable {Callback σ α : Type} {known : List Quoting} {state last : σ}

/-- A quote that is sent has been delivered. -/
def Justified (known : List Quoting) {β : Type} : Call Callback β → Prop
  | .auntieMsgSend msg _ => Quoted msg → Delivered known msg
  | _ => True

/-- Keeps what `ocall_quote_me` has returned: once at most, and before a quote is sent. -/
def watch : Monitor (Call Callback) σ (List Quoting) where
  answered known c quoting := known ++ quotings c quoting
  safe _ known c := known.length ≤ 1 ∧ Justified known c

theorem foldl_watch (known : List Quoting) (events : List (Event (Call Callback))) :
    events.foldl (watch : Monitor (Call Callback) σ _).observe known =
      known ++ quotingsIn events := by
  induction events generalizing known with
  | nil => exact (List.append_nil known).symm
  | cons event events ih =>
    rw [List.foldl_cons, ih]
    cases event with
    | issued c => rfl
    | answered c quoting => exact List.append_assoc known _ _

/-- The calls that neither ask for a quote nor send one. -/
def Plain {β : Type} : Call Callback β → Prop
  | .ocallQuoteMe _ => False
  | .auntieMsgSend msg _ => ¬ Quoted msg
  | _ => True

theorem not_quoted {msgType : Nat} {payload : Bytes}
    (h : msgType ∉ [msgAttestationSynack, msgAttestationAck]) :
    ¬ Quoted (.ofPayload msgType payload) := by
  simp only [List.mem_cons, List.not_mem_nil, or_false] at h
  exact h

theorem Plain.justified {β : Type} {c : Call Callback β} (h : Plain c) : Justified known c := by
  cases c with
  | auntieMsgSend => exact fun hquoted => absurd hquoted h
  | _ => trivial

theorem Plain.quotings {β : Type} {c : Call Callback β} (h : Plain c) (answer : β) :
    quotings c answer = [] := by
  cases c with
  | ocallQuoteMe => exact absurd h id
  | _ => rfl

theorem plain_of_handshake {β : Type} (c : Call Callback β) (h : c.Handshake) : Plain c := by
  cases c with
  | auntieMsgSend => exact absurd h id
  | ocallQuoteMe => exact absurd h id
  | _ => trivial

section Steps
variable {β : Type} {post : α → σ → List Quoting → Prop} (hknown : known.length ≤ 1)
include hknown

theorem plain_step {c : Call Callback β} {f : β → Program (Call Callback) σ α} (hc : Plain c)
    (h : ∀ answer, wp watch post (f answer) state known) :
    wp watch post (issue c >>= f) state known := by
  rw [wp_bind, wp_issue]
  refine ⟨⟨hknown, hc.justified⟩, fun answer => ?_⟩
  change wp watch post (f answer) state (known ++ quotings c answer)
  rw [hc.quotings answer, List.append_nil]
  exact h answer

/-- The frame rule for code that has nothing to do with quotes. -/
theorem plain_frame {keeps : σ → Prop} {p : Program (Call Callback) σ α} (h : p.Within Plain keeps)
    (hstate : keeps state) (hpost : ∀ value last, keeps last → post value last known) :
    wp watch post p state known := by
  refine h.quiet ?_ ?_ hstate hpost
  · intro β current c hc
    exact ⟨hknown, hc.justified⟩
  · intro β c answer hc
    change known ++ quotings c answer = known
    rw [hc.quotings answer, List.append_nil]

theorem sending_step {msg : Message} {channel : ChannelRef} {f : Int32 → Program (Call Callback) σ α}
    (hsent : Delivered known msg) (h : ∀ ret, wp watch post (f ret) state known) :
    wp watch post (issue (.auntieMsgSend msg channel) >>= f) state known := by
  rw [wp_bind, wp_issue]
  refine ⟨⟨hknown, fun _ => hsent⟩, fun ret => ?_⟩
  change wp watch post (f ret) state (known ++ [])
  rw [List.append_nil]
  exact h ret

omit hknown in
theorem quoting_step {report : Report} {f : Quoting → Program (Call Callback) σ α}
    (h : ∀ ret callbacks, wp watch post (f (ret, callbacks)) state [(ret, callbacks)]) :
    wp watch post (issue (.ocallQuoteMe report) >>= f) state [] := by
  rw [wp_bind, wp_issue]
  exact ⟨⟨Nat.zero_le 1, True.intro⟩, fun quoting => h quoting.1 quoting.2⟩

omit hknown in
theorem get_step {f : σ → Program (Call Callback) σ α} (h : wp watch post (f state) state known) :
    wp watch post ((MonadState.get : Program (Call Callback) σ σ) >>= f) state known := h

theorem plain_bind {p : Program (Call Callback) σ β} {f : β → Program (Call Callback) σ α}
    (hp : p.Within Plain (state = ·)) (h : ∀ value, wp watch post (f value) state known) :
    wp watch post (p >>= f) state known := by
  rw [wp_bind]
  refine plain_frame hknown hp rfl ?_
  rintro value _ rfl
  exact h value

end Steps

/-- What is known when an attempt ends. -/
structure Ends (known : List Quoting) (failed : Prop) (stash : Stash) : Prop where
  once : known.length ≤ 1
  left : stash.quote = none ↔ ∀ quoting ∈ known, Taken quoting
  noticed : (0, []) ∈ known → failed

theorem Ends.unasked {failed : Prop} {stash : Stash} (h : stash.quote = none) :
    Ends [] failed stash :=
  ⟨Nat.zero_le 1, iff_of_true h (List.forall_mem_nil _), fun hmem => absurd hmem List.not_mem_nil⟩

theorem Ends.asked {failed : Prop} {stash : Stash} {ret : Int32} {callbacks : List QuoteCallback}
    (hleft : stash.quote = none ↔ Taken (ret, callbacks)) (hnoticed : callbacks = [] → failed) :
    Ends [(ret, callbacks)] failed stash where
  once := Nat.le_refl 1
  left := by rw [hleft, List.forall_mem_singleton]
  noticed hmem := hnoticed (Prod.ext_iff.mp (List.mem_singleton.mp hmem)).2.symm

/-- Where the attempt ends before it takes the quote. -/
theorem Ends.of_left {failed : Prop} {stash : Stash} {ret : Int32} {callbacks : List QuoteCallback}
    (hstash : stash.quote = none)
    (hleft : ret ≠ 0 ∨ (callbacks.foldl Stash.put stash).get = none) (hfailed : failed) :
    Ends [(ret, callbacks)] failed (callbacks.foldl Stash.put stash) :=
  .asked (taken_of_left hstash hleft) fun _ => hfailed

/-- Where the attempt has taken the quote and dropped it. -/
theorem Ends.of_found {failed : Prop} {stash last : Stash} {ret : Int32}
    {callbacks : List QuoteCallback} {quote : Buffer} (hstash : stash.quote = none)
    (hret : ¬ ret ≠ 0) (hfound : (callbacks.foldl Stash.put stash).get = some quote)
    (hlast : last.quote = none) : Ends [(ret, callbacks)] failed last := by
  obtain ⟨htaken, callback, hcallback, _⟩ := found_last hstash hfound
  obtain rfl : ret = 0 := not_not.mp hret
  exact .asked (iff_of_true hlast htaken)
    fun hnil => absurd hnil (List.ne_nil_of_mem hcallback)

theorem delivered_of_found {stash : Stash} {ret : Int32} {callbacks : List QuoteCallback}
    {quote : Buffer} {msg : Message} (hstash : stash.quote = none)
    (hfound : (callbacks.foldl Stash.put stash).get = some quote)
    (hcarries : Carries msg quote.contents) : Delivered [(ret, callbacks)] msg := by
  obtain ⟨_, callback, hcallback, hstored, hquote⟩ := found_last hstash hfound
  exact ⟨_, List.mem_singleton.mpr rfl, callback, hcallback, hstored, hquote ▸ hcarries⟩

theorem Ends.mono {failed failed' : Prop} {stash : Stash} (h : Ends known failed stash)
    (himp : failed → failed') : Ends known failed' stash :=
  ⟨h.once, h.left, fun hmem => himp (h.noticed hmem)⟩

variable {p : Program (Call Callback) σ Int32} {events : List (Event (Call Callback))}
  {result : Option Int32} {stash : σ → Stash}

/-- What a program that ends so does from a state in which nothing is stored. -/
theorem fresh_of_ends (hexec : Exec p state events last result)
    (h : wp watch (fun ret last known => Ends known (ret ≠ 0) (stash last)) p state [])
    (hbegun : (stash state).quote = none) :
    (result.isSome → ∀ quoting ∈ quotingsIn events, Taken quoting) ↔
      Fresh (stash state) events (stash last) result := by
  have hends : ∀ ret, result = some ret → Ends (quotingsIn events) (ret ≠ 0) (stash last) := by
    rintro ret rfl
    have hpost := hexec.returned h
    rwa [foldl_watch, List.nil_append] at hpost
  have hdelivered : ∀ earlier later msg channel,
      events = earlier ++ .issued (.auntieMsgSend msg channel) :: later → Quoted msg →
        Delivered (quotingsIn earlier) msg := by
    intro earlier later msg channel hsplit hquoted
    obtain ⟨_, hsafe⟩ := (hsplit ▸ hexec.accepts h).issued
    rw [foldl_watch, List.nil_append] at hsafe
    exact hsafe.2 hquoted
  have honce : (quotingsIn events).length ≤ 1 := by
    cases result with
    | some ret => exact (hends ret rfl).once
    | none =>
      obtain ⟨before, β, c, hsplit, hsafe⟩ := hexec.waiting_safe h
      rw [foldl_watch, List.nil_append] at hsafe
      have hquotings : quotingsIn events = quotingsIn before := by
        rw [hsplit]
        simp [quotingsIn]
      rw [hquotings]
      exact hsafe.1
  have hunsent : (0, []) ∈ quotingsIn events →
      ∀ msg channel, .issued (.auntieMsgSend msg channel) ∈ events → ¬ Quoted msg := by
    intro hempty msg channel hissued hquoted
    obtain ⟨earlier, later, hsplit⟩ := List.append_of_mem hissued
    obtain ⟨quoting, hquoting, callback, hcallback, _⟩ :=
      hdelivered earlier later msg channel hsplit hquoted
    have hmem : quoting ∈ quotingsIn events := by
      rw [hsplit, quotingsIn, List.flatMap_append]
      exact List.mem_append_left _ hquoting
    obtain ⟨only, honly⟩ := List.length_eq_one_iff.mp
      (Nat.le_antisymm honce (List.length_pos_of_mem hmem))
    rw [honly, List.mem_singleton] at hmem hempty
    rw [hmem, ← hempty] at hcallback
    cases hcallback
  constructor
  · intro htaken
    refine ⟨hbegun, hdelivered, fun hempty => ⟨hunsent hempty, fun ret hret => ?_⟩, fun hsome => ?_⟩
    · exact (hends ret hret).noticed hempty
    · obtain ⟨ret, hret⟩ := Option.isSome_iff_exists.mp hsome
      exact (hends ret hret).left.mpr (htaken hsome)
  · intro hfresh hsome
    obtain ⟨ret, hret⟩ := Option.isSome_iff_exists.mp hsome
    exact (hends ret hret).left.mp (hfresh.dropped hsome)

end Watch

section Handshake
variable {Callback σ : Type}

theorem getReportData_plain (tcrypto : Tcrypto) (nonce : Digest) (ga gb : PublicKey)
    {keeps : σ → Prop} :
    (getReportData tcrypto nonce ga gb : Code Callback σ _).Within Plain keeps :=
  (getReportData_within nonce ga gb).mono fun c hc => plain_of_handshake c hc.handshake

theorem getSessionKey_plain (tcrypto : Tcrypto) (ga gb : PublicKey) (gab : SharedKey)
    {keeps : σ → Prop} :
    (getSessionKey tcrypto ga gb gab : Code Callback σ _).Within Plain keeps :=
  (getSessionKey_within ga gb gab).mono fun c hc => plain_of_handshake c hc.handshake

end Handshake

section Operator
open Operator
variable {globals : Globals}

theorem dropStashedQuote_spec {α : Type} {known : List Quoting} {f : PUnit → Code α}
    {post : α → Globals → List Quoting → Prop} (hknown : known.length ≤ 1)
    (h : wp watch post (f ()) { globals with stash := {} } known) :
    wp watch post (dropStashedQuote >>= f) globals known := by
  unfold dropStashedQuote
  rw [wp_bind, wp_bind, wp_get]
  cases globals.stash.quote with
  | none => exact h
  | some quote => exact plain_step hknown True.intro fun _ => h

/-- What a handshake ends with. -/
def Attempted {α : Type} (result : Option α) (last : Globals) (known : List Quoting) : Prop :=
  Ends known (result.isNone) last.stash

theorem answerSyn_spec (hstash : globals.stash.quote = none) (channel : ChannelRef)
    (msg1 : Pointer) (nonce : Digest) (gb : PublicKey) (sessionKey : SessionKey)
    (operatorReportData playerReportData : ReportData) :
    wp watch Attempted
      (answerSyn channel msg1 nonce gb sessionKey operatorReportData playerReportData)
      globals [] := by
  have hunasked : ([] : List Quoting).length ≤ 1 := Nat.zero_le 1
  unfold answerSyn stashQuotes
  rw [wp_bind, wp_get]
  apply plain_step hunasked
  · exact True.intro
  intro report
  cases report with
  | none =>
    repeat' with_reducible first
      | apply plain_step hunasked
      | intro _
    all_goals first
      | exact True.intro
      | exact Ends.unasked hstash
  | some report =>
    apply quoting_step
    intro ret callbacks
    have hasked : [(ret, callbacks)].length ≤ 1 := Nat.le_refl 1
    rw [wp_bind, wp_modify]
    split
    · rename_i hret
      apply plain_step hasked
      · exact True.intro
      intro _
      exact Ends.of_left hstash (.inl hret) rfl
    · rename_i hret
      rw [wp_bind, wp_get]
      dsimp only
      cases hfound : (callbacks.foldl Stash.put globals.stash).get with
      | none =>
        apply plain_step hasked
        · exact True.intro
        intro _
        exact Ends.of_left hstash (.inr hfound) rfl
      | some quote =>
        have hack : (receiveAck (channel.encrypt sessionKey) playerReportData).Within Plain
            (fun last => last.stash.quote = none) :=
          receiveAck_within plain_of_handshake (fun _ => True.intro) _ _
        repeat' with_reducible first
          | apply dropStashedQuote_spec hasked
          | apply sending_step hasked
          | apply plain_step hasked
          | intro _
          | split
        all_goals first
          | exact True.intro
          | exact Ends.of_found hstash hret hfound rfl
          | exact delivered_of_found hstash hfound (.inl ⟨gb, nonce, rfl⟩)
          | exact plain_frame hasked hack rfl fun _ _ => Ends.of_found hstash hret hfound

theorem mutualAttestation_spec (hstash : globals.stash.quote = none) (tcrypto : Tcrypto)
    (numPlayers : Nat) (context : Pointer) :
    wp watch Attempted (mutualAttestation tcrypto numPlayers context) globals [] := by
  have hunasked : ([] : List Quoting).length ≤ 1 := Nat.zero_le 1
  unfold mutualAttestation deriveSecrets
  repeat' with_reducible first
    | exact answerSyn_spec hstash _ _ _ _ _ _ _
    | apply plain_bind hunasked (getReportData_plain _ _ _ _)
    | apply plain_bind hunasked (getSessionKey_plain _ _ _ _)
    | apply plain_step hunasked
    | apply get_step
    | intro _
    | split
  all_goals first
    | exact True.intro
    | exact Ends.unasked hstash

theorem learnQuotingEnclave_plain {stash : Stash} :
    learnQuotingEnclave.Within Plain (fun last => last.stash = stash) :=
  learnQuotingEnclave_within trivial fun _ _ _ => id

theorem presentQuotes_plain (numPlayers : Nat) {keeps : Globals → Prop} :
    (presentQuotes numPlayers).Within Plain keeps := by
  have hplayer : ∀ i, (playerAt i).Within Plain keeps := playerAt_within trivial
  refine presentQuotes_within (fun _ => trivial) (fun _ => trivial) (fun _ => trivial)
    (fun _ _ => trivial) (fun i _ => hplayer i) ?_
  intro msgType payload htype i _
  refine Program.Within.bind (hplayer i) fun player => Program.Within.issue ?_
  simp only [List.mem_cons, List.not_mem_nil, or_false] at htype
  rcases htype with rfl | rfl
  · exact not_quoted (by decide)
  · exact not_quoted (by decide)

theorem addPlayer_plain (numPlayers : Nat) (player : Player) {stash : Stash} :
    (addPlayer numPlayers player).Within Plain (fun last => last.stash = stash) :=
  addPlayer_within trivial (fun _ _ _ => id) numPlayers player

theorem ecallConnectToPlayer_spec {dep : Deployment} (hstash : globals.stash.quote = none)
    (context : Pointer) :
    wp watch (fun ret last known => Ends known (ret ≠ 0) last.stash)
      (ecallConnectToPlayer dep context) globals [] := by
  have hunasked : ([] : List Quoting).length ≤ 1 := Nat.zero_le 1
  unfold ecallConnectToPlayer
  rw [wp_bind, wp_get]
  split
  · exact Ends.unasked hstash
  rw [wp_bind]
  refine plain_frame hunasked learnQuotingEnclave_plain rfl ?_
  intro error last hlast
  cases error with
  | some error => exact Ends.unasked (hlast ▸ hstash)
  | none =>
    rw [wp_bind]
    refine wp_mono ?_ (mutualAttestation_spec (hlast ▸ hstash) dep.tcrypto _ context)
    intro player last known hends
    cases player with
    | none => exact hends.mono fun _ => by decide
    | some player =>
      have hkept : ∀ (ret : Int32) (final : Globals), final.stash = last.stash →
          Ends known (ret ≠ 0) final.stash := by
        intro ret final hfinal
        rw [hfinal]
        exact hends.mono (by simp)
      rw [wp_bind]
      refine plain_frame hends.once (addPlayer_plain _ _) rfl ?_
      intro _ final hfinal
      rw [wp_bind, wp_get]
      split
      · exact plain_frame hends.once (presentQuotes_plain _) hfinal (hkept ·)
      · exact hkept 0 final hfinal

end Operator

section Player
open Player
variable {globals : Globals}

theorem drop_spec {α : Type} {known : List Quoting} {f : PUnit → Player.Code α}
    {post : α → Globals → List Quoting → Prop} (hknown : known.length ≤ 1)
    (h : wp watch post (f ()) { globals with stash := {} } known) :
    wp watch post (dropStashedQuote >>= f) globals known := by
  unfold dropStashedQuote
  rw [wp_bind, wp_bind, wp_get]
  cases globals.stash.quote with
  | none => exact h
  | some quote => exact plain_step hknown True.intro fun _ => h

theorem stashQuotes_spec {α : Type} {known : List Quoting} {callbacks : List QuoteCallback}
    {f : PUnit → Player.Code α} {post : α → Globals → List Quoting → Prop}
    (h : wp watch post (f ())
      { globals with stash := callbacks.foldl Stash.put globals.stash } known) :
    wp watch post (stashQuotes callbacks >>= f) globals known := h

theorem answerSynack_spec (hstash : globals.stash.quote = none) (tcrypto : Tcrypto)
    (quotingEnclave : TargetInfo) (channel : ChannelRef) (nonce : Digest) (ga : PublicKey)
    (gab : SharedKey) (msg2 : ReceivedMessage) :
    wp watch (fun operator last known => Ends known operator.isNone last.stash)
      (answerSynack tcrypto quotingEnclave channel nonce ga gab msg2) globals [] := by
  have hunasked : ([] : List Quoting).length ≤ 1 := Nat.zero_le 1
  have hasked : ∀ quoting : Quoting, [quoting].length ≤ 1 := fun _ => Nat.le_refl 1
  unfold answerSynack
  repeat' with_reducible first
    | apply plain_bind hunasked (getReportData_plain _ _ _ _)
    | apply plain_bind hunasked (getSessionKey_plain _ _ _ _)
    | apply quoting_step
    | apply stashQuotes_spec
    | apply drop_spec (hasked _)
    | apply get_step
    | apply sending_step (hasked _)
    | apply plain_step hunasked
    | apply plain_step (hasked _)
    | intro _
    | dsimp only
    | split
  all_goals first
    | exact True.intro
    | exact Ends.unasked hstash
    | exact Ends.of_left hstash (.inl ‹_›) rfl
    | exact Ends.of_left hstash (.inr (Option.eq_none_iff_forall_ne_some.mpr ‹_›)) rfl
    | exact Ends.of_found hstash ‹_› ‹_› rfl
    | exact delivered_of_found hstash ‹_› (.inr rfl)

theorem mutual_spec (hstash : globals.stash.quote = none) (tcrypto : Tcrypto) (context : Pointer)
    (quotingEnclave : TargetInfo) (id : Nat) :
    wp watch (fun operator last known => Ends known operator.isNone last.stash)
      (Player.mutualAttestation tcrypto context quotingEnclave id) globals [] := by
  have hunasked : ([] : List Quoting).length ≤ 1 := Nat.zero_le 1
  unfold Player.mutualAttestation fault
  repeat' with_reducible first
    | exact answerSynack_spec hstash _ _ _ _ _ _ _
    | apply plain_step hunasked
    | intro _
    | split
  all_goals first
    | exact True.intro
    | exact Ends.unasked hstash
    | exact not_quoted (by decide)

theorem present_plain (numPlayers : Nat) (operator : Operator) (playerId : Nat)
    {keeps : Globals → Prop} :
    (Player.presentQuotes numPlayers operator playerId).Within Plain keeps :=
  Player.presentQuotes_within (fun _ => trivial) (fun _ _ => trivial) (fun _ => trivial)
    (fun _ => trivial) (fun _ => not_quoted (by decide)) numPlayers operator playerId

theorem ecallConnectToOperator_spec {dep : Deployment} (hstash : globals.stash.quote = none)
    (context : Pointer) (playerId : Nat) :
    wp watch (fun ret last known => Ends known (ret ≠ 0) last.stash)
      (ecallConnectToOperator dep context playerId) globals [] := by
  have hunasked : ([] : List Quoting).length ≤ 1 := Nat.zero_le 1
  unfold ecallConnectToOperator ecallConnectToOperatorImpl
  rw [wp_bind, wp_get]
  split
  · exact Ends.unasked hstash
  apply plain_step hunasked
  · exact True.intro
  intro quoting
  dsimp only
  split
  · exact Ends.unasked hstash
  rw [wp_bind]
  refine wp_mono ?_ (mutual_spec hstash dep.tcrypto context quoting.2 playerId)
  intro operator last known hends
  rw [wp_bind, wp_modify]
  cases operator with
  | none => exact hends.mono fun _ => by decide
  | some operator =>
    have hkept : ∀ (ret : Int32) (final : Globals), final.stash = last.stash →
        Ends known (ret ≠ 0) final.stash := by
      intro ret final hfinal
      rw [hfinal]
      exact hends.mono (by simp)
    have hpresent : ∀ {stash : Stash}, (Player.presentQuotes dep.build.numPlayers operator
        playerId).Within Plain (fun final => final.stash = stash) := present_plain _ _ _
    rw [wp_bind]
    refine plain_frame hends.once hpresent rfl ?_
    intro ret final hfinal
    split
    · repeat' with_reducible first
        | apply plain_step hends.once
        | intro _
      all_goals first
        | exact True.intro
        | exact hkept ret _ hfinal
    · exact hkept 0 final hfinal

def StashKept (first second : Globals) : Prop := second.stash = first.stash

section Impls
variable {dep : Deployment}

theorem ecallInitializeImpl_keeps (context : Pointer) :
    (Player.ecallInitializeImpl context).Moves StashKept globals := by
  refine .of_within (Player.ecallInitializeImpl_within context) ⟨_, _, rfl⟩ ?_
  rintro _ _ ⟨_, _, rfl⟩ ⟨_, _, rfl⟩
  rfl

theorem adviceOnly_keeps (first second : Globals) (h : AdviceOnly globals first)
    (h' : AdviceOnly globals second) : StashKept first second := by
  obtain ⟨_, rfl⟩ := h
  obtain ⟨_, rfl⟩ := h'
  rfl

theorem ecallDepositAndInputImpl_keeps (depositTransaction input : Bytes) :
    (Player.ecallDepositAndInputImpl dep.build depositTransaction input).Moves StashKept globals :=
  .of_within (Player.ecallDepositAndInputImpl_within _ _ _) ⟨_, rfl⟩ adviceOnly_keeps

theorem ecallGetDepositsImpl_keeps (context : Pointer) :
    (Player.ecallGetDepositsImpl dep.build context).Moves StashKept globals := by
  refine .of_within (Player.ecallGetDepositsImpl_permitted _ context) ⟨_, _, _, _, rfl⟩ ?_
  rintro _ _ ⟨_, _, _, _, rfl⟩ ⟨_, _, _, _, rfl⟩
  rfl

theorem ecallConfirmDepositsImpl_keeps :
    Player.ecallConfirmDepositsImpl.Moves StashKept globals :=
  .of_within Player.ecallConfirmDepositsImpl_permitted ⟨_, rfl⟩ adviceOnly_keeps

theorem same_keeps (first second : Globals) (h : globals = first) (h' : globals = second) :
    StashKept first second := h ▸ h' ▸ rfl

theorem ecallSettleImpl_keeps (context : Pointer) (blocks : Bytes) :
    (Player.ecallSettleImpl dep context blocks).Moves StashKept globals :=
  .of_within (Player.ecallSettleImpl_within context blocks) rfl same_keeps

theorem ecallRefundImpl_keeps (context : Pointer) (blocks : Bytes) :
    (Player.ecallRefundImpl dep context blocks).Moves StashKept globals :=
  .of_within (Player.ecallRefundImpl_within context blocks) rfl same_keeps

theorem setState_keeps (state : Player.State) :
    (Player.setState state).Moves StashKept globals := Program.Moves.update rfl

theorem other_keeps {op : Player.Ecall}
    (hother : ∀ context playerId, op ≠ .ecallConnectToOperator context playerId) :
    (Player.handle dep op).Moves StashKept globals := by
  cases op with
  | ecallConnectToOperator context playerId => exact absurd rfl (hother context playerId)
  | _ =>
    simp only [Player.handle, Player.ecallInitialize, Player.ecallDepositAndInput,
      Player.ecallGetDeposits, Player.ecallConfirmDeposits, Player.ecallSettle, Player.ecallRefund]
    repeat' with_reducible first
      | exact ecallInitializeImpl_keeps _
      | exact ecallDepositAndInputImpl_keeps _ _
      | exact ecallGetDepositsImpl_keeps _
      | exact ecallConfirmDepositsImpl_keeps
      | exact ecallSettleImpl_keeps _ _
      | exact ecallRefundImpl_keeps _ _
      | exact setState_keeps _
      | apply Program.Moves.value
      | apply Program.Moves.get_bind
      | apply Program.Moves.bind
      | intro _ _
      | split

end Impls

end Player

section Runs
variable {dep : Deployment}

/-- The connection attempts of the player's enclave. -/
def attempts (step : Step (Player.enclave dep)) : Bool :=
  match step.op with
  | .ecallConnectToOperator _ _ => true
  | _ => false

/-- Between the ECALLs nothing is stored. -/
def OperatorRests (globals : Operator.Globals) : Prop := globals.stash.quote = none

def PlayerRests (globals : Player.Globals) : Prop := globals.stash.quote = none

theorem operator_fresh {step : Step (Operator.enclave dep)} (hstash : step.before.stash.quote = none)
    (valid : step.Valid) (hconnects : PlayerTable.connects step) :
    Fresh step.before.stash step.events step.after.stash step.result ↔
      (step.result.isSome → ∀ quoting ∈ quotingsIn step.events, Taken quoting) := by
  obtain ⟨before, op, events, last, result⟩ := step
  have hexec : Exec (Operator.handle dep op) before events last result := valid
  cases op with
  | ecallConnectToPlayer context =>
    exact (fresh_of_ends hexec (ecallConnectToPlayer_spec hstash context) hstash).symm
  | _ => cases hconnects

theorem player_fresh {step : Step (Player.enclave dep)} (hstash : step.before.stash.quote = none)
    (valid : step.Valid) (hattempts : attempts step) :
    Fresh step.before.stash step.events step.after.stash step.result ↔
      (step.result.isSome → ∀ quoting ∈ quotingsIn step.events, Taken quoting) := by
  obtain ⟨before, op, events, last, result⟩ := step
  have hexec : Exec (Player.handle dep op) before events last result := valid
  cases op with
  | ecallConnectToOperator context playerId =>
    exact (fresh_of_ends hexec (ecallConnectToOperator_spec hstash context playerId) hstash).symm
  | _ => cases hattempts

theorem operator_rests {step : Step (Operator.enclave dep)} (hstash : step.before.stash.quote = none)
    (valid : step.Valid) (hother : PlayerTable.connects step = false) :
    step.after.stash.quote = none := by
  have hkept : PlayerTable.SetupKept step.before step.after := by
    refine (PlayerTable.other_moves fun context hop => ?_).reaches PlayerTable.SetupKept.refl
      PlayerTable.SetupKept.trans valid
    simp [PlayerTable.connects, hop] at hother
  rw [hkept.2]
  exact hstash

theorem player_rests {step : Step (Player.enclave dep)} (hstash : step.before.stash.quote = none)
    (valid : step.Valid) (hother : attempts step = false) : step.after.stash.quote = none := by
  have hkept : StashKept step.before step.after := by
    refine (other_keeps fun context playerId hop => ?_).reaches (fun _ => rfl)
      (fun _ _ _ h h' => h'.trans h) valid
    simp [attempts, hop] at hother
  rw [hkept]
  exact hstash

/-- Every attempt of an enclave is fresh if and only if every quote that an attempt which has
returned could store was taken. -/
theorem quote_freshness (dep : Deployment) :
    (∀ (steps : List (Step (Operator.enclave dep))) (last : Operator.Globals),
      Trace (Operator.enclave dep) (Operator.initial dep) steps last →
        ((∀ step ∈ steps, PlayerTable.connects step →
          Fresh step.before.stash step.events step.after.stash step.result) ↔
        ∀ step ∈ steps, PlayerTable.connects step → step.result.isSome →
          ∀ quoting ∈ quotingsIn step.events, Taken quoting)) ∧
    (∀ (steps : List (Step (Player.enclave dep))) (last : Player.Globals),
      Trace (Player.enclave dep) Player.initial steps last →
        ((∀ step ∈ steps, attempts step →
          Fresh step.before.stash step.events step.after.stash step.result) ↔
        ∀ step ∈ steps, attempts step → step.result.isSome →
          ∀ quoting ∈ quotingsIn step.events, Taken quoting)) := by
  constructor
  · intro steps last trace
    have hinit : OperatorRests (Operator.initial dep) := rfl
    refine trace.steps_iff hinit ?_ ?_
    · intro step hstash valid
      exact forall_congr' (operator_fresh hstash valid)
    · intro step hstash valid finished hfresh
      cases hconnects : PlayerTable.connects step with
      | true => exact (hfresh hconnects).dropped finished
      | false => exact operator_rests hstash valid hconnects
  · intro steps last trace
    have hinit : PlayerRests Player.initial := rfl
    refine trace.steps_iff hinit ?_ ?_
    · intro step hstash valid
      exact forall_congr' (player_fresh hstash valid)
    · intro step hstash valid finished hfresh
      cases hattempts : attempts step with
      | true => exact (hfresh hattempts).dropped finished
      | false => exact player_rests hstash valid hattempts

/-- The three attempts of the contract, and the player's, are fresh. -/
theorem quote_freshness_played :
    (∀ step ∈ Operator.contractSteps, PlayerTable.connects step →
      Fresh step.before.stash step.events step.after.stash step.result) ∧
    ∀ step ∈ Player.contractSteps, attempts step →
      Fresh step.before.stash step.events step.after.stash step.result := by
  have htaken : Taken (0, [⟨[1], some 1⟩]) := by
    intro callback hlast _
    cases hlast
    exact ⟨rfl, List.cons_ne_nil _ _⟩
  have hoperator : ∀ step ∈ Operator.contractSteps, ∀ quoting ∈ quotingsIn step.events,
      quoting = (0, [⟨[1], some 1⟩]) := by decide +kernel
  have hplayer : ∀ step ∈ Player.contractSteps, ∀ quoting ∈ quotingsIn step.events,
      quoting = (0, [⟨[1], some 1⟩]) := by decide +kernel
  constructor
  · refine ((quote_freshness zeroDeployment).1 _ _ (.resting Operator.contractSteps_run)).mpr ?_
    intro step hstep _ _ quoting hquoting
    exact hoperator step hstep quoting hquoting ▸ htaken
  · refine ((quote_freshness zeroDeployment).2 _ _ (.resting Player.contractSteps_run)).mpr ?_
    intro step hstep _ _ quoting hquoting
    exact hplayer step hstep quoting hquoting ▸ htaken

end Runs

section Host
open Operator

/-- A host that hands over a quote and fails the OCALL, and the next time only says that it
succeeded. -/
def stalingHost {β : Type} (time : Nat) : Call Callback β → Option β
  | .ocallQuoteMe _ => some (if time < 40 then (-1, [⟨[1], some 1⟩]) else (0, []))
  | c => contractHost time c

def staleSteps : List (Step (enclave zeroDeployment)) :=
  playRun (enclave zeroDeployment) stalingHost 0 (initial zeroDeployment)
    [.ecallConnectToPlayer 1, .ecallConnectToPlayer 1]

def staleStep : Step (enclave zeroDeployment) := staleSteps.get ⟨1, by decide +kernel⟩

theorem staleSteps_run : Run (enclave zeroDeployment) (initial zeroDeployment) staleSteps
    (lastState (enclave zeroDeployment) (initial zeroDeployment) staleSteps) :=
  run_playRun (enclave zeroDeployment) stalingHost (initial zeroDeployment) _ (by decide +kernel)

/-- The second attempt sends the quote that the first one left, although nobody called back. -/
theorem stale_quote_sent :
    ¬ ∀ (dep : Deployment) (steps : List (Step (enclave dep))) (last : Globals),
      Trace (enclave dep) (initial dep) steps last → ∀ step ∈ steps, PlayerTable.connects step →
        Fresh step.before.stash step.events step.after.stash step.result := by
  intro hall
  have hmem : staleStep ∈ staleSteps := List.get_mem _ _
  have hconnects : PlayerTable.connects staleStep = true := by decide +kernel
  have hempty : (0, []) ∈ quotingsIn staleStep.events := by decide +kernel
  have hsome : sentIn staleStep.events ≠ [] := by decide +kernel
  have hstale : ∀ sent ∈ sentIn staleStep.events, sent.1.msgType = msgAttestationSynack ∧
      sent.1.payload.drop 96 = [1] := by decide +kernel
  have hfresh := hall _ _ _ (.resting staleSteps_run) staleStep hmem hconnects
  obtain ⟨sent, hsent⟩ := List.exists_mem_of_ne_nil _ hsome
  exact (hfresh.detected hempty).1 sent.1 sent.2 (mem_sentIn.mp hsent) (.inl (hstale sent hsent).1)

end Host

end Auntie.Guarantees.QuoteFreshness
