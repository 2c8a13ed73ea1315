import SrgGrading.Library.Transition
import SrgGrading.Store.Closure
import SrgGrading.Web.Results

/-!
# Webhook deliveries

GitHub signs its deliveries and repeats them under the same delivery id.  The
route stores the id with the digest of the body in the transaction that acts on
the delivery, and answers a known id from the stored digest.

* `Inbox.process_spec`: acting on a delivery adds its id, and at most one event,
  which carries the id.
* `Inbox.recorded_run`: the ids stored are those of the deliveries that
  succeeded, each with its body.
* `Inbox.exactly_once`: so each is acted on once, whatever arrives in whatever
  order.
-/

open Fallible Relational

namespace Grading

/-! ### Signatures -/

section Signatures
variable [Sha256]

/-- The 32 bytes of a hash. -/
def hashBytes (hash : BitVec 256) : List UInt8 :=
  (List.range 32).map fun i => UInt8.ofNat (hash.toNat / 256 ^ (31 - i))

/-- HMAC with SHA-256. -/
def hmac (secret body : List UInt8) : List UInt8 :=
  let key := if 64 < secret.length then hashBytes (Sha256.sum secret) else secret
  let block := key ++ List.replicate (64 - key.length) 0
  let inner := hashBytes (Sha256.sum (block.map (· ^^^ 0x36) ++ body))
  hashBytes (Sha256.sum (block.map (· ^^^ 0x5c) ++ inner))

/-- The value of a hexadecimal digit in either case. -/
def hexDigit (c : Char) : Option Nat :=
  if Text.isAsciiDigit c then some (c.toNat - 0x30)
  else if 0x61 ≤ c.toNat ∧ c.toNat ≤ 0x66 then some (c.toNat - 0x61 + 10)
  else if 0x41 ≤ c.toNat ∧ c.toNat ≤ 0x46 then some (c.toNat - 0x41 + 10)
  else none

/-- `hex::decode`. -/
def decodeHex : List Char → Option (List UInt8)
  | [] => some []
  | a :: b :: rest => do
    let x ← hexDigit a
    let y ← hexDigit b
    let bytes ← decodeHex rest
    some (UInt8.ofNat (x * 16 + y) :: bytes)
  | _ => none

/-- `security::verify_webhook`. -/
def verifyWebhook (secret : List UInt8) (signature : String) (body : List UInt8) :
    Except Error Unit := do
  check (32 ≤ secret.length) "webhook secret must contain at least 32 bytes"
  let signature ← fetchOne (.message "invalid signature") (Text.stripStart signature "sha256=")
  let mac ← fetchOne (.message "Invalid character in hex string") (decodeHex signature.toList)
  check (hmac secret body = mac) "MAC tag mismatch"

end Signatures

namespace Web

/-- `map_err` to a status. -/
def orStatus {α : Type} (status : HttpError) : Except Error α → Except HttpError α
  | .ok a => .ok a
  | .error _ => .error status

/-! ### The route -/

/-- The body of a push. -/
structure Push where
  after : String
  reference : String
  deleted : Bool
  repositoryId : Int

/-- A row of `webhook_deliveries`. -/
structure Delivery where
  deliveryId : Uuid
  bodyDigest : String
  receivedAt : Time

/-- What the route writes: the database with the table `webhook_deliveries` and
the column `github_repo_id` of the repositories. -/
structure Inbox where
  store : Store
  githubRepoIds : List (Int × Uuid)
  deliveries : List Delivery

/-- The headers the route reads, parsed, and the body. -/
structure WebhookRequest where
  signature : Option String
  delivery : Option Uuid
  event : Option String
  body : List UInt8

/-- A request with what its handling draws: the clocks, `Uuid::new_v4` and the
order of rows the queries leave unordered. -/
structure WebhookCall where
  request : WebhookRequest
  received : Time
  now : Time
  fresh : Nat → Uuid
  tie : Uuid → Nat

/-- The codes the route answers with when it succeeds. -/
inductive Success
  | ok
  | accepted
  deriving DecidableEq

namespace Inbox

/-- The repository a push goes to, with its pinned revision. -/
def pushed (s : Inbox) (githubId : Int) : Option (StudentRepository × AssignmentRevision) := do
  let (_, id) ← s.githubRepoIds.find? fun row => row.1 = githubId
  let r ← lookup StudentRepository.id id s.store.repositories
  let v ← lookup AssignmentRevision.digest r.revisionDigest s.store.revisions
  return (r, v)

variable [Sha256] (decode : List UInt8 → Except Error Push) (secret : List UInt8)

/-- The transaction once the delivery id is inserted. -/
def process (s : Inbox) (call : WebhookCall) (delivery : Uuid) (event : String) :
    Except HttpError Inbox := do
  let row : Delivery := ⟨delivery, digest call.request.body, timestamptz call.received⟩
  let s : Inbox := { s with deliveries := s.deliveries ++ [row] }
  if event = "push" then do
    let push ← orStatus .badRequest (decode call.request.body)
    match s.pushed push.repositoryId with
    | none => return s
    | some (r, v) => do
      let revision ← fromAnyhow v.definition.decode
      if push.reference = "refs/heads/" ++ revision.assignment.branch then
        if push.deleted then return { s with store := s.store.markReview fun q => q.id = r.id }
        else do
          let (store, _) ← orStatus .badRequest (Submissions.record s.store call.now call.fresh
            call.tie r.id push.after call.received .webhook (some delivery))
          return { s with store }
      else return s
  else return s

/-- The transaction of `webhook`: the inbox to commit, and the code. -/
def transaction (s : Inbox) (call : WebhookCall) (delivery : Uuid) (event : String) :
    Except HttpError (Inbox × Success) :=
  match s.deliveries.find? fun row => row.deliveryId = delivery with
  | some previous =>
    if previous.bodyDigest ≠ digest call.request.body then .error .conflict else .ok (s, .ok)
  | none => do
    let s ← s.process decode call delivery event
    return (s, .accepted)

/-- `webhook`: the inbox after a request, and the answer.  An error leaves the
transaction uncommitted. -/
def webhook (s : Inbox) (call : WebhookCall) : Inbox × Except HttpError Success :=
  let answer : Except HttpError (Inbox × Success) := do
    let signature ← fetchOne .forbidden call.request.signature
    let _ ← orStatus .forbidden (verifyWebhook secret signature call.request.body)
    let delivery ← fetchOne .badRequest call.request.delivery
    let event ← fetchOne .badRequest call.request.event
    s.transaction decode call delivery event
  match answer with
  | .ok (s', code) => (s', .ok code)
  | .error e => (s, .error e)

/-! ### Runs -/

/-- The request is signed and carries a delivery id and an event. -/
def Signed (request : WebhookRequest) (delivery : Uuid) : Prop :=
  (∃ signature, request.signature = some signature ∧
    verifyWebhook secret signature request.body = .ok ()) ∧
  request.delivery = some delivery ∧ request.event.isSome = true

/-- What happens to the inbox: a delivery, or a write of another part, whose
receipts carry no delivery id. -/
inductive Event
  | deliver (call : WebhookCall)
  | background

inductive Step : Inbox → Event → Inbox → Prop
  | deliver {s : Inbox} {call : WebhookCall} :
      Step s (.deliver call) (s.webhook decode secret call).1
  | background {s : Inbox} {store : Store} {githubRepoIds : List (Int × Uuid)}
      {added : List SubmissionEvent} (hevents : store.events = s.store.events ++ added)
      (hadded : ∀ e ∈ added, e.deliveryId = none) :
      Step s .background ⟨store, githubRepoIds, s.deliveries⟩

/-- Nothing was delivered yet. -/
structure Initial (s : Inbox) : Prop where
  deliveries : s.deliveries = []
  events : ∀ e ∈ s.store.events, e.deliveryId = none

/-- The transition is a delivery of `body` under the id `delivery` that succeeded. -/
def Delivers (delivery : Uuid) (body : List UInt8) (p : Inbox × Event) : Prop :=
  ∃ call code, p.2 = .deliver call ∧ call.request.delivery = some delivery ∧
    call.request.body = body ∧ (p.1.webhook decode secret call).2 = .ok code

variable {decode secret} {s s' : Inbox} {call : WebhookCall} {delivery : Uuid} {event : String}

/-- **What acting on a delivery does.** -/
theorem process_spec (h : s.process decode call delivery event = .ok s') :
    s'.deliveries = s.deliveries ++
      [⟨delivery, digest call.request.body, timestamptz call.received⟩] ∧
    (s'.store.events = s.store.events ∨
      ∃ e, s'.store.events = s.store.events ++ [e] ∧ e.deliveryId = some delivery) := by
  rw [process] at h
  split at h
  · simp only [bind_ok] at h
    obtain ⟨push, _, h⟩ := h
    split at h
    · rw [pure_ok] at h
      subst h
      exact ⟨rfl, Or.inl rfl⟩
    · simp only [bind_ok] at h
      obtain ⟨revision, _, h⟩ := h
      split at h
      · split at h
        · rw [pure_ok] at h
          subst h
          exact ⟨rfl, Or.inl rfl⟩
        · simp only [bind_ok, pure_ok] at h
          obtain ⟨⟨store, out⟩, hrecord, rfl⟩ := h
          refine ⟨rfl, Or.inr ?_⟩
          cases hr : Submissions.record s.store call.now call.fresh call.tie _ push.after
              call.received .webhook (some delivery) with
          | error e =>
            rw [hr] at hrecord
            cases hrecord
          | ok done =>
            rw [hr, orStatus, Except.ok.injEq] at hrecord
            rw [hrecord] at hr
            obtain ⟨_, _, hevents, _⟩ := record_cases hr
            exact ⟨_, hevents, rfl⟩
      · rw [pure_ok] at h
        subst h
        exact ⟨rfl, Or.inl rfl⟩
  · rw [pure_ok] at h
    subst h
    exact ⟨rfl, Or.inl rfl⟩

/-- A known id is answered from the stored digest. -/
theorem webhook_known (decode : List UInt8 → Except Error Push) {row : Delivery} (hsigned : Signed secret call.request delivery)
    (hrow : s.deliveries.find? (fun row => row.deliveryId = delivery) = some row) :
    s.webhook decode secret call = (s, if row.bodyDigest = digest call.request.body then .ok .ok
      else .error .conflict) := by
  obtain ⟨⟨signature, hsignature, hverified⟩, hdelivery, hevent⟩ := hsigned
  obtain ⟨event, hevent⟩ := Option.isSome_iff_exists.mp hevent
  have hanswer : s.transaction decode call delivery event =
      if row.bodyDigest ≠ digest call.request.body then .error .conflict else .ok (s, .ok) := by
    rw [transaction, hrow]
  rw [webhook]
  simp only [hsignature, hverified, hdelivery, hevent, fetchOne, orStatus, bind, Except.bind,
    hanswer]
  by_cases hsame : row.bodyDigest = digest call.request.body
  · rw [if_neg (not_not.mpr hsame), if_pos hsame]
  · rw [if_pos hsame, if_neg hsame]

/-- A delivery under a new id is acted on, or changes nothing. -/
theorem webhook_new (decode : List UInt8 → Except Error Push) (hsigned : Signed secret call.request delivery)
    (hnew : ∀ row ∈ s.deliveries, row.deliveryId ≠ delivery) :
    ∃ event, call.request.event = some event ∧ s.webhook decode secret call =
      match s.process decode call delivery event with
      | .ok s' => (s', .ok .accepted)
      | .error e => (s, .error e) := by
  obtain ⟨⟨signature, hsignature, hverified⟩, hdelivery, hevent⟩ := hsigned
  obtain ⟨event, hevent⟩ := Option.isSome_iff_exists.mp hevent
  refine ⟨event, hevent, ?_⟩
  have hnone : s.deliveries.find? (fun row => row.deliveryId = delivery) = none :=
    List.find?_eq_none.mpr fun row hrow => by simpa using hnew row hrow
  rw [webhook]
  simp only [hsignature, hverified, hdelivery, hevent, fetchOne, orStatus, bind, Except.bind,
    transaction, hnone]
  cases s.process decode call delivery event <;> rfl

/-- **An error changes nothing.** -/
theorem webhook_error {e : HttpError} (h : (s.webhook decode secret call).2 = .error e) :
    (s.webhook decode secret call).1 = s := by
  rw [webhook] at h ⊢
  split at h
  · cases h
  · rfl

/-- Only signed requests with an id succeed. -/
theorem signed_of_ok {code : Success} (h : (s.webhook decode secret call).2 = .ok code) :
    ∃ delivery, Signed secret call.request delivery := by
  rw [webhook] at h
  split at h
  · rename_i hanswer
    simp only [bind_ok, fetchOne_ok] at hanswer
    obtain ⟨signature, hsignature, _, hverified, delivery, hdelivery, event, hevent, _⟩ := hanswer
    refine ⟨delivery, ⟨signature, hsignature, ?_⟩, hdelivery, by rw [hevent]; rfl⟩
    cases hv : verifyWebhook secret signature call.request.body with
    | ok _ => rfl
    | error e =>
      rw [hv] at hverified
      cases hverified
  · cases h

/-- **What a request does**: it fails and changes nothing, or its id and body
are known and it changes nothing, or its id is new and it is acted on. -/
theorem webhook_cases (decode : List UInt8 → Except Error Push) (secret : List UInt8) (s : Inbox)
    (call : WebhookCall) :
    (∃ e, s.webhook decode secret call = (s, .error e)) ∨
    ∃ delivery, call.request.delivery = some delivery ∧
      ((∃ row ∈ s.deliveries, row.deliveryId = delivery ∧
          row.bodyDigest = digest call.request.body ∧
          s.webhook decode secret call = (s, .ok .ok)) ∨
        ((∀ row ∈ s.deliveries, row.deliveryId ≠ delivery) ∧ ∃ event s',
          s.process decode call delivery event = .ok s' ∧
          s.webhook decode secret call = (s', .ok .accepted))) := by
  cases hout : (s.webhook decode secret call).2 with
  | error e => exact Or.inl ⟨e, Prod.ext (webhook_error hout) hout⟩
  | ok code =>
    obtain ⟨delivery, hsigned⟩ := signed_of_ok hout
    refine Or.inr ⟨delivery, hsigned.2.1, ?_⟩
    cases hfind : s.deliveries.find? (fun row => row.deliveryId = delivery) with
    | some row =>
      have hknown := webhook_known decode hsigned hfind
      have hid := List.find?_some hfind
      rw [decide_eq_true_eq] at hid
      rw [hknown] at hout ⊢
      by_cases hsame : row.bodyDigest = digest call.request.body
      · refine Or.inl ⟨row, List.mem_of_find?_eq_some hfind, hid, hsame, ?_⟩
        rw [if_pos hsame]
      · rw [if_neg hsame] at hout
        cases hout
    | none =>
      have hnew : ∀ row ∈ s.deliveries, row.deliveryId ≠ delivery := fun row hrow hid =>
        List.find?_eq_none.mp hfind row hrow (decide_eq_true hid)
      obtain ⟨event, _, hprocess⟩ := webhook_new decode hsigned hnew
      cases hp : s.process decode call delivery event with
      | ok s' =>
        rw [hp] at hprocess
        exact Or.inr ⟨hnew, event, s', hp, hprocess⟩
      | error e =>
        rw [hp] at hprocess
        rw [hprocess] at hout
        cases hout

/-! ### What the stored ids say about a run -/

variable {start σ : Inbox} {taken : List (Inbox × Event)}

/-- The stored ids and events, next to the transitions that led to them. -/
structure Recorded (decode : List UInt8 → Except Error Push) (secret : List UInt8)
    (taken : List (Inbox × Event)) (s : Inbox) : Prop where
  keyed : Keyed Delivery.deliveryId s.deliveries
  stored : ∀ p ∈ taken, ∀ delivery body, Delivers decode secret delivery body p →
    ∃ row ∈ s.deliveries, row.deliveryId = delivery ∧ row.bodyDigest = digest body
  caused : ∀ row ∈ s.deliveries, ∃ p ∈ taken, ∃ body,
    Delivers decode secret row.deliveryId body p
  events : ∀ e ∈ s.store.events, ∀ delivery, e.deliveryId = some delivery →
    ∃ row ∈ s.deliveries, row.deliveryId = delivery
  once : ∀ delivery, s.store.events.countP (fun e => e.deliveryId = some delivery) ≤ 1

theorem Initial.recorded (h : Initial s) : Recorded decode secret [] s where
  keyed := by rw [h.deliveries]; exact keyed_nil _
  stored := by intro p hp; cases hp
  caused := by rw [h.deliveries]; intro row hrow; cases hrow
  events := by
    intro e he delivery hdelivery
    rw [h.events e he] at hdelivery
    cases hdelivery
  once := by
    intro delivery
    rw [List.countP_eq_zero.mpr fun e he => by simp [h.events e he]]
    exact Nat.zero_le 1

/-- A transition after which the inbox is as it was. -/
theorem Recorded.unchanged {p : Inbox × Event} (h : Recorded decode secret taken s)
    (hp : ∀ delivery body, Delivers decode secret delivery body p →
      ∃ row ∈ s.deliveries, row.deliveryId = delivery ∧ row.bodyDigest = digest body) :
    Recorded decode secret (taken ++ [p]) s where
  keyed := h.keyed
  stored := by
    intro q hq delivery body hdelivers
    rcases List.mem_append.mp hq with hq | hq
    · exact h.stored q hq delivery body hdelivers
    · rw [List.mem_singleton] at hq
      subst hq
      exact hp delivery body hdelivers
  caused := by
    intro row hrow
    obtain ⟨q, hq, hdelivers⟩ := h.caused row hrow
    exact ⟨q, List.mem_append_left _ hq, hdelivers⟩
  events := h.events
  once := h.once

/-- A delivery under a new id. -/
theorem Recorded.processed (h : Recorded decode secret taken s)
    (hdelivery : call.request.delivery = some delivery)
    (hnew : ∀ row ∈ s.deliveries, row.deliveryId ≠ delivery)
    (hprocess : s.process decode call delivery event = .ok s')
    (hout : s.webhook decode secret call = (s', .ok .accepted)) :
    Recorded decode secret (taken ++ [(s, .deliver call)]) s' := by
  obtain ⟨hdeliveries, hevents⟩ := process_spec hprocess
  have hthis : Delivers decode secret delivery call.request.body (s, .deliver call) :=
    ⟨call, .accepted, rfl, hdelivery, rfl, by rw [hout]⟩
  have hnone : s.store.events.countP (fun e => e.deliveryId = some delivery) = 0 := by
    refine List.countP_eq_zero.mpr fun e he hid => ?_
    rw [decide_eq_true_eq] at hid
    obtain ⟨row, hrow, hrowid⟩ := h.events e he delivery hid
    exact hnew row hrow hrowid
  refine ⟨?_, ?_, ?_, ?_, ?_⟩
  · rw [hdeliveries]
    exact h.keyed.append hnew
  · intro q hq other body hdelivers
    rw [hdeliveries]
    rcases List.mem_append.mp hq with hq | hq
    · obtain ⟨row, hrow, hrow'⟩ := h.stored q hq other body hdelivers
      exact ⟨row, List.mem_append_left _ hrow, hrow'⟩
    · rw [List.mem_singleton] at hq
      subst hq
      obtain ⟨call', _, hcall, hother, rfl, _⟩ := hdelivers
      cases hcall
      rw [hdelivery, Option.some_inj] at hother
      exact ⟨_, List.mem_append_right _ List.mem_cons_self, hother, rfl⟩
  · intro row hrow
    rw [hdeliveries] at hrow
    rcases List.mem_append.mp hrow with hrow | hrow
    · obtain ⟨q, hq, hdelivers⟩ := h.caused row hrow
      exact ⟨q, List.mem_append_left _ hq, hdelivers⟩
    · rw [List.mem_singleton] at hrow
      subst hrow
      exact ⟨_, List.mem_append_right _ List.mem_cons_self, _, hthis⟩
  · intro e he other hother
    rw [hdeliveries]
    have hold : e ∈ s.store.events → ∃ row ∈ s.deliveries ++
        [⟨delivery, digest call.request.body, timestamptz call.received⟩],
        row.deliveryId = other := fun hold => by
      obtain ⟨row, hrow, hrowid⟩ := h.events e hold other hother
      exact ⟨row, List.mem_append_left _ hrow, hrowid⟩
    rcases hevents with hsame | ⟨added, hadded, hid⟩
    · rw [hsame] at he
      exact hold he
    · rw [hadded] at he
      rcases List.mem_append.mp he with he | he
      · exact hold he
      · rw [List.mem_singleton] at he
        rw [he, hid, Option.some_inj] at hother
        exact ⟨_, List.mem_append_right _ List.mem_cons_self, hother⟩
  · intro other
    rcases hevents with hsame | ⟨added, hadded, hid⟩
    · rw [hsame]
      exact h.once other
    · rw [hadded, List.countP_append, List.countP_singleton]
      by_cases hother : delivery = other
      · rw [← hother, hnone]
        split <;> omega
      · rw [if_neg (by simp [hid, hother])]
        exact h.once other

/-- **What is stored after a run.** -/
theorem recorded_run (hstart : Initial start)
    (hrun : Transition.Run (Step decode secret) start taken σ) :
    Recorded decode secret taken σ := by
  induction hrun with
  | nil => exact hstart.recorded
  | @snoc taken s s' l _ hstep ih =>
    cases hstep with
    | @deliver call =>
      rcases webhook_cases decode secret s call with ⟨e, hout⟩ | ⟨delivery, hdelivery, hcases⟩
      · rw [hout]
        refine ih.unchanged fun delivery body hdelivers => ?_
        obtain ⟨call', code, hcall, _, _, hok⟩ := hdelivers
        cases hcall
        rw [hout] at hok
        cases hok
      · rcases hcases with ⟨row, hrow, hid, hdigest, hout⟩ | ⟨hnew, event, s', hprocess, hout⟩
        · rw [hout]
          refine ih.unchanged fun other body hdelivers => ?_
          obtain ⟨call', code, hcall, hother, rfl, _⟩ := hdelivers
          cases hcall
          rw [hdelivery, Option.some_inj] at hother
          exact ⟨row, hrow, hid.trans hother, hdigest⟩
        · rw [hout]
          exact ih.processed hdelivery hnew hprocess hout
    | @background store githubRepoIds added hevents hadded =>
      have hsame := ih.unchanged (p := (s, Event.background)) fun delivery body hdelivers => by
        obtain ⟨call, _, hcall, _⟩ := hdelivers
        cases hcall
      refine ⟨hsame.keyed, hsame.stored, hsame.caused, ?_, fun delivery => ?_⟩
      · intro e he delivery hdelivery
        rw [hevents] at he
        rcases List.mem_append.mp he with he | he
        · exact ih.events e he delivery hdelivery
        · rw [hadded e he] at hdelivery
          cases hdelivery
      · have hnone : added.countP (fun e => e.deliveryId = some delivery) = 0 :=
          List.countP_eq_zero.mpr fun e he => by simp [hadded e he]
        rw [hevents, List.countP_append, hnone]
        exact ih.once delivery

/-- **Deliveries are processed exactly once.**  After any run of deliveries,
mixed with writes of other parts, an id has at most one event.  The same body
under the id of a delivery that succeeded is answered and changes nothing,
another body is refused and changes nothing, a request that fails changes
nothing, and one whose id has not succeeded is acted on as new. -/
theorem exactly_once (hstart : Initial start)
    (hrun : Transition.Run (Step decode secret) start taken σ) :
    (∀ delivery, σ.store.events.countP (fun e => e.deliveryId = some delivery) ≤ 1) ∧
    (∀ p ∈ taken, ∀ delivery body, Delivers decode secret delivery body p →
      ∀ call, Signed secret call.request delivery →
        (call.request.body = body → σ.webhook decode secret call = (σ, .ok .ok)) ∧
        (call.request.body ≠ body →
          CollisionFree (fun bytes => bytes = body ∨ bytes = call.request.body) →
          σ.webhook decode secret call = (σ, .error .conflict))) ∧
    (∀ call e, (σ.webhook decode secret call).2 = .error e →
      (σ.webhook decode secret call).1 = σ) ∧
    (∀ call delivery, Signed secret call.request delivery →
      (∀ p ∈ taken, ∀ body, ¬Delivers decode secret delivery body p) →
      ∃ event, call.request.event = some event ∧ σ.webhook decode secret call =
        match σ.process decode call delivery event with
        | .ok s' => (s', .ok .accepted)
        | .error e => (σ, .error e)) := by
  have hrecorded := recorded_run hstart hrun
  refine ⟨hrecorded.once, ?_, fun call e => webhook_error, ?_⟩
  · intro p hp delivery body hdelivers call hsigned
    obtain ⟨row, hrow, hid, hdigest⟩ := hrecorded.stored p hp delivery body hdelivers
    have hfind : σ.deliveries.find? (fun row => row.deliveryId = delivery) = some row :=
      hrecorded.keyed.find hrow (decide_eq_true hid)
        fun y hy => (of_decide_eq_true hy).trans hid.symm
    have hknown := webhook_known decode hsigned hfind
    rw [hknown]
    constructor
    · intro hbody
      rw [if_pos (by rw [hdigest, hbody])]
    · intro hbody hc
      have hne : row.bodyDigest ≠ digest call.request.body := by
        intro heq
        rw [hdigest] at heq
        exact hbody (hc.eq (Or.inl rfl) (Or.inr rfl) heq).symm
      rw [if_neg hne]
  · intro call delivery hsigned hnone
    refine webhook_new _ hsigned fun row hrow hid => ?_
    obtain ⟨p, hp, body, hdelivers⟩ := hrecorded.caused row hrow
    rw [hid] at hdelivers
    exact hnone p hp body hdelivers

end Inbox

end Web

/-! ### A ping delivered twice, and another body under its id -/

namespace Sample

attribute [local instance] Sha256.standard

open Web

def webhookSecret : List UInt8 := List.replicate 32 7

/-- A signed ping with the id 7. -/
def ping (body : List UInt8) (mac : String) : WebhookCall where
  request := ⟨some ("sha256=" ++ mac), some 7, some "ping", body⟩
  received := second 1
  now := second 1
  fresh := ids 0
  tie := fun _ => 0

def pingObject : WebhookCall :=
  ping [123, 125] "7204813b88da3469d9b37525eab7411cea611dd13401dd13e609fb07d86ac348"

def pingArray : WebhookCall :=
  ping [91, 93] "85fdf829b109cff520a40198c237297ccea543f973b553643afdf85890feb985"

def noPush : List UInt8 → Except Error Push := fun _ => .error .json

def inbox : Inbox := ⟨start.store, [], []⟩

/-- The inbox after the ping. -/
def pinged : Inbox := (inbox.webhook noPush webhookSecret pingObject).1

theorem signed_pings : Inbox.Signed webhookSecret pingObject.request 7 ∧
    Inbox.Signed webhookSecret pingArray.request 7 := by
  have hobject : verifyWebhook webhookSecret
      "sha256=7204813b88da3469d9b37525eab7411cea611dd13401dd13e609fb07d86ac348" [123, 125] =
      .ok () := by
    decide +kernel
  have harray : verifyWebhook webhookSecret
      "sha256=85fdf829b109cff520a40198c237297ccea543f973b553643afdf85890feb985" [91, 93] =
      .ok () := by
    decide +kernel
  exact ⟨⟨⟨_, rfl, hobject⟩, rfl, rfl⟩, ⟨⟨_, rfl, harray⟩, rfl, rfl⟩⟩

/-- The ping is answered again, and the other body refused. -/
theorem exactly_once_ping :
    pinged.webhook noPush webhookSecret pingObject = (pinged, .ok .ok) ∧
    pinged.webhook noPush webhookSecret pingArray = (pinged, .error .conflict) := by
  have hinitial : inbox.Initial := ⟨rfl, fun e he => by cases he⟩
  have hdelivers : Inbox.Delivers noPush webhookSecret 7 [123, 125]
      (inbox, .deliver pingObject) := by
    refine ⟨pingObject, .accepted, rfl, rfl, rfl, ?_⟩
    obtain ⟨event, hevent, hout⟩ := Inbox.webhook_new noPush (s := inbox)
      signed_pings.1 (fun row hrow => by cases hrow)
    cases hevent
    rw [hout]
    rfl
  have hrun : Transition.Run (Inbox.Step noPush webhookSecret) inbox
      [(inbox, .deliver pingObject)] _ := .single .deliver
  have hknown := (Inbox.exactly_once hinitial hrun).2.1 _ List.mem_cons_self 7 _ hdelivers
  refine ⟨(hknown pingObject signed_pings.1).1 rfl, (hknown pingArray signed_pings.2).2
    (show [91, 93] ≠ ([123, 125] : List UInt8) by decide) ?_⟩
  have hdiffer : Sha256.sum [123, 125] ≠ Sha256.sum [91, 93] := by
    decide +kernel
  intro a b ha hb hsum
  rcases ha with rfl | rfl <;> rcases hb with rfl | rfl
  · rfl
  · exact absurd hsum hdiffer
  · exact absurd hsum.symm hdiffer
  · rfl

end Sample

end Grading
