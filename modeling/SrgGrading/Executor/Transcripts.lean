import SrgGrading.Library.Transcoding
import SrgGrading.Executor.Channel

/-!
# Execution transcripts

A student command runs under a supervisor in its sandbox.  The supervisor reads
both streams in turns, as far as 64 KiB each, and prints one line of JSON; the
executor reads the line from the log of the pod and answers the grading script.

* `Supervisor.loop_spec`: the three ways the loop ends.
* `Output.Sound`: what every line says.
* `notStarted_read`, `notStarted_told`: what is read, and what the script is told, of
  a command that does not start.
* `Transcripts.faithful`: what the script is told about the streams, and of a
  supervisor that was killed.
-/

open Fallible

namespace Grading

namespace Transcripts

/-! ### The supervisor -/

inductive Stream
  | stdout
  | stderr
  deriving DecidableEq

/-- `LIMIT` -/
def limit : Nat := 65536

inductive Failure
  | timeout
  | outputLimit
  deriving DecidableEq

def Failure.text : Failure → List Char
  | .timeout => "timeout".toList
  | .outputLimit => "output_limit".toList

def Failure.exitCode : Failure → Int
  | .timeout => 124
  | .outputLimit => 125

/-- One pass of the loop: when it begins, and what is read from the streams that
are ready.  An empty chunk is the end of the stream. -/
structure Pass where
  now : Time
  reads : List (Stream × List UInt8)

structure Supervisor where
  buffers : Stream → List UInt8
  registered : List Stream
  failure : Option Failure

namespace Supervisor

def start : Supervisor := ⟨fun _ => [], [.stdout, .stderr], none⟩

def read (σ : Supervisor) (s : Stream) (chunk : List UInt8) : Supervisor :=
  if chunk = [] then { σ with registered := σ.registered.filter (· ≠ s) }
  else
    let remaining := limit - (σ.buffers s).length
    { σ with
      buffers := Function.update σ.buffers s (σ.buffers s ++ chunk.take remaining)
      failure := if remaining < chunk.length then some .outputLimit else σ.failure }

/-- The reads of one pass; a failure ends them. -/
def readAll : Supervisor → List (Stream × List UInt8) → Supervisor
  | σ, [] => σ
  | σ, (s, chunk) :: rest =>
    if (σ.read s chunk).failure = none then (σ.read s chunk).readAll rest else σ.read s chunk

/-- The loop, or `none` while it goes on. -/
def loop (deadline : Time) : List Pass → Supervisor → Option Supervisor
  | [], σ => if σ.registered = [] then some σ else none
  | p :: rest, σ =>
    if σ.registered = [] then some σ
    else if deadline ≤ p.now then some { σ with failure := some .timeout }
    else if (σ.readAll p.reads).failure = none then loop deadline rest (σ.readAll p.reads)
    else some (σ.readAll p.reads)

end Supervisor

/-- How a process ends. -/
inductive Exit
  | exited (status : Fin 256)
  | signaled (signal : Fin 128)
  deriving DecidableEq

def Exit.returncode : Exit → Int
  | .exited status => status.val
  | .signaled signal => -signal.val

/-- What the supervisor prints, and the executor reads. -/
structure Output where
  stdout : List Char
  stderr : List Char
  exitCode : Int
  failure : Option (List Char)
  deriving DecidableEq

def Output.stream (o : Output) : Stream → List Char
  | .stdout => o.stdout
  | .stderr => o.stderr

def Supervisor.output (σ : Supervisor) (exitCode : Int) (failure : Option Failure) : Output where
  stdout := Utf8.decodeLossy (σ.buffers .stdout)
  stderr := Utf8.decodeLossy (σ.buffers .stderr)
  exitCode := exitCode
  failure := failure.map Failure.text

/-- A run of a process that started.  `waited` is how it ended, unless the time
was over before. -/
def supervise (deadline : Time) (passes : List Pass) (waited : Option Exit) : Option Output :=
  (Supervisor.start.loop deadline passes).map fun σ =>
    match σ.failure, waited with
    | some failure, _ => σ.output failure.exitCode (some failure)
    | none, some e => σ.output e.returncode none
    | none, none => σ.output Failure.timeout.exitCode (some .timeout)

/-- The process did not start. -/
def notStarted (error : List Char) : Output where
  stdout := []
  stderr := Utf8.decodeLossy ((error.flatMap String.utf8EncodeChar).take limit)
  exitCode := 127
  failure := none

/-- The members of the JSON object. -/
def Output.members (o : Output) : List (List Char × Scalar) :=
  [("stdout".toList, .str o.stdout), ("stderr".toList, .str o.stderr),
    ("exit_code".toList, .num o.exitCode),
    ("failure".toList, match o.failure with
      | some failure => .str failure
      | none => .null)]

/-- The line that is printed. -/
def Output.line (o : Output) : List Char := Flat.dumps o.members ++ ['\n']

/-! ### The executor -/

/-- What a log request may return. -/
def podLogLimit : Nat := 1024 * 1024

def strMember (key : String) (members : List (List Char × Scalar)) : Option (List Char) :=
  match members.find? fun m => m.1 = key.toList with
  | some (_, .str s) => some s
  | _ => none

def i32Member (key : String) (members : List (List Char × Scalar)) : Option Int :=
  match members.find? fun m => m.1 = key.toList with
  | some (_, .num n) => if -2 ^ 31 ≤ n ∧ n < 2 ^ 31 then some n else none
  | _ => none

/-- A member that may be missing. -/
def strMemberIfSome (key : String) (members : List (List Char × Scalar)) :
    Option (Option (List Char)) :=
  match members.find? fun m => m.1 = key.toList with
  | some (_, .str s) => some (some s)
  | some (_, .null) | none => some none
  | _ => none

/-- Read the members of an output; other members are overlooked. -/
def Output.ofMembers (members : List (List Char × Scalar)) : Option Output := do
  let stdout ← strMember "stdout" members
  let stderr ← strMember "stderr" members
  let exitCode ← i32Member "exit_code" members
  let failure ← strMemberIfSome "failure" members
  some ⟨stdout, stderr, exitCode, failure⟩

/-- A JSON decoder that reads flat objects with distinct keys. -/
def Decodes (fromStr : List Char → Option Output) : Prop :=
  ∀ text members, Flat.read text = some members → (members.map Prod.fst).Nodup →
    fromStr text = Output.ofMembers members

/-- The container of a pod that ended. -/
structure Terminated where
  oomKilled : Bool
  exitCode : Int

/-- One look at a job. -/
structure Poll where
  /-- The deadline of the run has passed. -/
  late : Bool
  /-- The job could be read, and its own deadline has passed or not. -/
  deadlineExceeded : Except Error Bool
  ended : Bool
  terminated : Except Error Terminated
  log : Except Error (List Char)

def waitJob : List Poll → Option (Except Error JobOutcome)
  | [] => none
  | p :: rest =>
    if p.late then some (.ok (.failed .timedOut))
    else
      match p.deadlineExceeded with
      | .error e => some (.error e)
      | .ok true => some (.ok (.failed .timedOut))
      | .ok false =>
        if p.ended then
          match p.terminated with
          | .error e => some (.error e)
          | .ok t =>
            if t.oomKilled then some (.ok (.studentFailure "memory_limit"))
            else
              match p.log with
              | .error e => some (.error e)
              | .ok log => some (.ok (.output t.exitCode (String.ofList log)))
        else waitJob rest

/-! ### Run logs -/

/-- `Capture::push` -/
def push (studentVisible : Bool) (text : String) (logs : List RunLog) : List RunLog :=
  if 128 ≤ logs.length then logs
  else
    let used := (logs.map fun log => Text.len log.text).sum
    let kept := String.ofList (truncateTo (maxRunLogBytes - used) text.toList)
    if kept = "" then logs else logs ++ [⟨studentVisible, kept⟩]

def intText (n : Int) : String := String.ofList (Json.renderNum n)

/-- A status as the executor logs it. -/
def statusName : RunStatus → String
  | .completed => "Completed"
  | .integrityFailed => "IntegrityFailed"
  | .infrastructureFailed => "InfrastructureFailed"
  | .timedOut => "TimedOut"
  | .invalidated => "Invalidated"

/-- What is pushed about an outcome. -/
def outcomeText : Except Error JobOutcome → String
  | .ok (.output code _) => "Exit code: " ++ intText code ++ "\n"
  | .ok (.studentFailure reason) => "Execution failed: " ++ reason ++ "\n"
  | .ok (.failed status) => "Execution status: " ++ statusName status ++ "\n"
  | .error _ => "Execution could not complete.\n"

/-- A job that is waited for. -/
structure JobWatch where
  name : String
  studentVisible : Bool
  workflow : Bool
  /-- The logs of its pods, where they can be listed and read. -/
  podLogs : Option (List (Option String))

def JobWatch.push (j : JobWatch) (text : String) (logs : List RunLog) : List RunLog :=
  Transcripts.push j.studentVisible text logs

/-- Fetched after timeouts and errors as well. -/
def JobWatch.pushPods (j : JobWatch) (logs : List RunLog) : List RunLog :=
  match j.podLogs with
  | some pods =>
    pods.foldl (fun logs pod =>
      match pod with
      | some output => j.push ("Job " ++ j.name ++ "\n" ++ output ++ "\n") logs
      | none => j.push "Sandbox logs were unavailable.\n" logs) logs
  | none => j.push "Sandbox logs were unavailable.\n" logs

def JobWatch.transcript (j : JobWatch) (o : Output) : String :=
  "Job " ++ j.name ++ "\nstdout:\n" ++ String.ofList o.stdout ++ "\nstderr:\n" ++
    String.ofList o.stderr ++ "\nExit code: " ++ intText o.exitCode ++ "\n"

/-! ### Outcomes -/

/-- What an output comes to. -/
def Output.outcome (o : Output) : Except Error JobOutcome :=
  match o.failure with
  | none => .ok (.output o.exitCode (String.ofList o.stdout))
  | some failure =>
    if failure = Failure.timeout.text then .ok (.studentFailure "timeout")
    else if failure = Failure.outputLimit.text then .ok (.studentFailure "output_limit")
    else .error (.message "unknown execution failure")

section Decoder
variable (fromStr : List Char → Option Output)

def decodeOutput (code : Int) (output : String) : Except Error Output := do
  check (code = 0) "execution supervisor failed"
  match fromStr output.toList with
  | some o => return o
  | none => .error .json

/-- Wait for a job, with the logs pushed meanwhile. -/
def JobWatch.wait (j : JobWatch) (outcome : Except Error JobOutcome) (logs : List RunLog) :
    Except Error JobOutcome × List RunLog :=
  match j.workflow, outcome with
  | true, .ok (.output code output) =>
    if code ≠ 0 then
      (.ok (.studentFailure "execution_failed"),
        j.push "Execution supervisor terminated abnormally.\n" logs)
    else
      match decodeOutput fromStr code output with
      | .error e => (.error e, logs)
      | .ok o => (o.outcome, j.push (j.transcript o) logs)
  | _, outcome => (outcome, j.push (outcomeText outcome) (j.pushPods logs))

end Decoder

/-! ### Reads -/

/-- What was read of a stream. -/
def chunks (s : Stream) (reads : List (Stream × List UInt8)) : List (List UInt8) :=
  (reads.filter fun r => r.1 = s).map Prod.snd

def bytesOf (s : Stream) (reads : List (Stream × List UInt8)) : List UInt8 :=
  (chunks s reads).flatten

/-- The chunks of a stream: of at most 8192 bytes, and an empty one at the end. -/
inductive Split : List UInt8 → List (List UInt8) → Prop
  | unread (bytes : List UInt8) : Split bytes []
  | ended : Split [] [[]]
  | chunk (c : List UInt8) {rest : List UInt8} {cs : List (List UInt8)} (hne : c ≠ [])
      (hsize : c.length ≤ 8192) (h : Split rest cs) : Split (c ++ rest) (c :: cs)

/-- The reads of the passes that begin before the deadline. -/
def early (deadline : Time) (passes : List Pass) : List (Stream × List UInt8) :=
  (passes.takeWhile fun p => p.now < deadline).flatMap Pass.reads

theorem chunks_append (s : Stream) (a b : List (Stream × List UInt8)) :
    chunks s (a ++ b) = chunks s a ++ chunks s b := by
  rw [chunks, List.filter_append, List.map_append]
  rfl

theorem bytesOf_append (s : Stream) (a b : List (Stream × List UInt8)) :
    bytesOf s (a ++ b) = bytesOf s a ++ bytesOf s b := by
  rw [bytesOf, chunks_append, List.flatten_append]
  rfl

theorem chunks_self (s : Stream) (chunk : List UInt8) : chunks s [(s, chunk)] = [chunk] := by
  rw [chunks, List.filter_cons_of_pos (by simp)]
  rfl

theorem chunks_of_ne {s t : Stream} (h : s ≠ t) (chunk : List UInt8) :
    chunks t [(s, chunk)] = [] := by
  rw [chunks, List.filter_cons_of_neg (by simpa using h)]
  rfl

theorem Split.prefix_of_append {bytes : List UInt8} {pre post : List (List UInt8)}
    (h : Split bytes (pre ++ post)) : pre.flatten <+: bytes := by
  induction pre generalizing bytes with
  | nil => exact List.nil_prefix
  | cons c pre ih =>
    rw [List.cons_append] at h
    generalize hcs : c :: (pre ++ post) = cs at h
    cases h with
    | unread => cases hcs
    | ended =>
      obtain ⟨rfl, hnil⟩ := List.cons.inj hcs
      obtain ⟨rfl, rfl⟩ := List.append_eq_nil_iff.mp hnil
      exact ⟨[], rfl⟩
    | chunk c' hne hsize hrest =>
      cases hcs
      exact (List.prefix_append_right_inj _).mpr (ih hrest)

/-- A stream that ended was read as a whole, and nothing is read after it. -/
theorem Split.whole {bytes : List UInt8} {pre post : List (List UInt8)}
    (h : Split bytes (pre ++ post)) (hend : [] ∈ pre) : pre.flatten = bytes ∧ post = [] := by
  induction pre generalizing bytes with
  | nil => cases hend
  | cons c pre ih =>
    rw [List.cons_append] at h
    generalize hcs : c :: (pre ++ post) = cs at h
    cases h with
    | unread => cases hcs
    | ended =>
      obtain ⟨rfl, hnil⟩ := List.cons.inj hcs
      obtain ⟨rfl, rfl⟩ := List.append_eq_nil_iff.mp hnil
      exact ⟨rfl, rfl⟩
    | chunk c' hne hsize hrest =>
      cases hcs
      have hmore : [] ∈ pre := (List.mem_cons.mp hend).resolve_left fun heq => hne heq.symm
      obtain ⟨hflat, hpost⟩ := ih hrest hmore
      exact ⟨by rw [List.flatten_cons, hflat], hpost⟩

/-! ### The loop -/

namespace Supervisor

/-- The buffers hold what was read. -/
structure Keeps (σ : Supervisor) (done : List (Stream × List UInt8)) : Prop where
  buffers : ∀ s, σ.buffers s = bytesOf s done
  small : ∀ s, (bytesOf s done).length ≤ limit
  registered : ∀ s, s ∈ σ.registered ↔ [] ∉ chunks s done

/-- A stream was longer than what is kept of it. -/
structure Cuts (σ : Supervisor) (done : List (Stream × List UInt8)) : Prop where
  failure : σ.failure = some .outputLimit
  buffers : ∀ s, σ.buffers s = (bytesOf s done).take limit
  large : ∃ s, limit < (bytesOf s done).length

theorem start_keeps : start.Keeps [] where
  buffers _ := rfl
  small _ := Nat.zero_le _
  registered s := by cases s <;> decide

theorem Keeps.read {σ : Supervisor} {done : List (Stream × List UInt8)} (h : σ.Keeps done)
    (hnone : σ.failure = none) (s : Stream) (chunk : List UInt8) :
    ((σ.read s chunk).failure = none ∧ (σ.read s chunk).Keeps (done ++ [(s, chunk)])) ∨
      (σ.read s chunk).Cuts (done ++ [(s, chunk)]) := by
  have hself : bytesOf s (done ++ [(s, chunk)]) = bytesOf s done ++ chunk := by
    rw [bytesOf_append, bytesOf, bytesOf, chunks_self, List.flatten_singleton]
  have hother : ∀ t, t ≠ s → chunks t (done ++ [(s, chunk)]) = chunks t done := by
    intro t ht
    rw [chunks_append, chunks_of_ne ht.symm, List.append_nil]
  have hbytes : ∀ t, t ≠ s → bytesOf t (done ++ [(s, chunk)]) = bytesOf t done := by
    intro t ht
    rw [bytesOf, hother t ht, bytesOf]
  have hroom := h.small s
  rw [Supervisor.read]
  split
  · rename_i hend
    subst hend
    rw [List.append_nil] at hself
    refine Or.inl ⟨hnone, fun t => ?_, fun t => ?_, fun t => ?_⟩
    · by_cases ht : t = s
      · subst ht
        rw [hself]
        exact h.buffers t
      · rw [hbytes t ht]
        exact h.buffers t
    · by_cases ht : t = s
      · subst ht
        rw [hself]
        exact h.small t
      · rw [hbytes t ht]
        exact h.small t
    · by_cases ht : t = s
      · subst ht
        simp [chunks_append, chunks_self]
      · rw [hother t ht, ← h.registered]
        simp [ht]
  · rename_i hne
    have hchunks : ∀ t, [] ∈ chunks t (done ++ [(s, chunk)]) ↔ [] ∈ chunks t done := by
      intro t
      by_cases ht : t = s
      · subst ht
        rw [chunks_append, chunks_self, List.mem_append, List.mem_singleton]
        exact ⟨fun h => h.resolve_right fun heq => hne heq.symm, Or.inl⟩
      · rw [hother t ht]
    rw [h.buffers s]
    dsimp only
    by_cases hfits : (bytesOf s done).length + chunk.length ≤ limit
    · left
      rw [if_neg (by omega)]
      refine ⟨hnone, fun t => ?_, fun t => ?_, fun t => ?_⟩
      · dsimp only
        by_cases ht : t = s
        · subst ht
          rw [Function.update_self, hself, List.take_of_length_le (by omega)]
        · rw [Function.update_of_ne ht, hbytes t ht]
          exact h.buffers t
      · by_cases ht : t = s
        · subst ht
          rw [hself, List.length_append]
          exact hfits
        · rw [hbytes t ht]
          exact h.small t
      · rw [hchunks]
        exact h.registered t
    · right
      rw [if_pos (by omega)]
      refine ⟨rfl, fun t => ?_, s, ?_⟩
      · dsimp only
        by_cases ht : t = s
        · subst ht
          rw [Function.update_self, hself, List.take_append, List.take_of_length_le hroom]
        · rw [Function.update_of_ne ht, hbytes t ht, h.buffers t,
            List.take_of_length_le (h.small t)]
      · rw [hself, List.length_append]
        omega

theorem Keeps.readAll {σ : Supervisor} {done : List (Stream × List UInt8)} (h : σ.Keeps done)
    (hnone : σ.failure = none) (reads : List (Stream × List UInt8)) :
    ((σ.readAll reads).failure = none ∧ (σ.readAll reads).Keeps (done ++ reads)) ∨
      ∃ pre, pre <+: reads ∧ (σ.readAll reads).Cuts (done ++ pre) := by
  induction reads generalizing σ done with
  | nil =>
    left
    rw [List.append_nil]
    exact ⟨hnone, h⟩
  | cons r rest ih =>
    obtain ⟨s, chunk⟩ := r
    rw [Supervisor.readAll]
    rcases h.read hnone s chunk with ⟨hnone', h'⟩ | hcuts
    · rw [if_pos hnone']
      rcases ih h' hnone' with ⟨hnone'', h''⟩ | ⟨pre, hpre, hcuts⟩
      · left
        rw [List.append_assoc] at h''
        exact ⟨hnone'', h''⟩
      · right
        rw [List.append_assoc] at hcuts
        exact ⟨(s, chunk) :: pre, (List.prefix_cons_inj _).mpr hpre, hcuts⟩
    · right
      have hsome : (σ.read s chunk).failure ≠ none := by
        rw [hcuts.failure]
        exact Option.some_ne_none _
      rw [if_neg hsome]
      exact ⟨[(s, chunk)], ⟨rest, rfl⟩, hcuts⟩

/-- **How the loop ends**: with both streams, with the deadline, or with a
stream that is too long. -/
inductive Ended (deadline : Time) (done : List (Stream × List UInt8)) (passes : List Pass)
    (τ : Supervisor) : Prop
  | closed (pre post : List Pass) (hpasses : passes = pre ++ post)
      (hearly : ∀ p ∈ pre, p.now < deadline) (hnone : τ.failure = none)
      (hclosed : τ.registered = []) (h : τ.Keeps (done ++ pre.flatMap Pass.reads))
  | timeout (pre : List Pass) (p : Pass) (post : List Pass) (hpasses : passes = pre ++ p :: post)
      (hearly : ∀ p ∈ pre, p.now < deadline) (hlate : deadline ≤ p.now)
      (htimeout : τ.failure = some .timeout) (hopen : τ.registered ≠ [])
      (h : τ.Keeps (done ++ pre.flatMap Pass.reads))
  | large (pre post : List Pass) (hpasses : passes = pre ++ post)
      (hearly : ∀ p ∈ pre, p.now < deadline) (reads : List (Stream × List UInt8))
      (hreads : reads <+: pre.flatMap Pass.reads) (h : τ.Cuts (done ++ reads))

theorem Ended.cons {deadline : Time} {done : List (Stream × List UInt8)} {p : Pass}
    {passes : List Pass} {τ : Supervisor} (hp : p.now < deadline)
    (h : Ended deadline (done ++ p.reads) passes τ) : Ended deadline done (p :: passes) τ := by
  cases h with
  | closed pre post hpasses hearly hnone hclosed h =>
    rw [List.append_assoc] at h
    exact .closed (p :: pre) post (by rw [hpasses]; rfl) (List.forall_mem_cons.mpr ⟨hp, hearly⟩)
      hnone hclosed h
  | timeout pre q post hpasses hearly hlate htimeout hopen h =>
    rw [List.append_assoc] at h
    exact .timeout (p :: pre) q post (by rw [hpasses]; rfl)
      (List.forall_mem_cons.mpr ⟨hp, hearly⟩) hlate htimeout hopen h
  | large pre post hpasses hearly reads hreads h =>
    rw [List.append_assoc] at h
    exact .large (p :: pre) post (by rw [hpasses]; rfl) (List.forall_mem_cons.mpr ⟨hp, hearly⟩)
      (p.reads ++ reads) ((List.prefix_append_right_inj _).mpr hreads) h

theorem loop_spec {deadline : Time} {passes : List Pass} {σ τ : Supervisor}
    {done : List (Stream × List UInt8)} (h : σ.Keeps done) (hnone : σ.failure = none)
    (hloop : σ.loop deadline passes = some τ) : Ended deadline done passes τ := by
  induction passes generalizing σ done with
  | nil =>
    rw [loop] at hloop
    split at hloop
    · rename_i hclosed
      cases hloop
      exact .closed [] [] rfl (fun _ hp => by cases hp) hnone hclosed (by simpa using h)
    · cases hloop
  | cons p rest ih =>
    rw [loop] at hloop
    split at hloop
    · rename_i hclosed
      cases hloop
      exact .closed [] (p :: rest) rfl (fun _ hp => by cases hp) hnone hclosed (by simpa using h)
    · rename_i hopen
      split at hloop
      · rename_i hlate
        cases hloop
        refine .timeout [] p rest rfl (fun _ hp => by cases hp) hlate rfl hopen ?_
        rw [List.flatMap_nil, List.append_nil]
        exact ⟨h.buffers, h.small, h.registered⟩
      · rename_i hlate
        have hp : p.now < deadline := lt_of_not_ge hlate
        rcases h.readAll hnone p.reads with ⟨hnone', h'⟩ | ⟨pre, hpre, hcuts⟩
        · rw [if_pos hnone'] at hloop
          exact (ih h' hnone' hloop).cons hp
        · have hsome : (σ.readAll p.reads).failure ≠ none := by
            rw [hcuts.failure]
            exact Option.some_ne_none _
          rw [if_neg hsome] at hloop
          cases hloop
          refine .large [p] rest rfl (List.forall_mem_singleton.mpr hp) pre ?_ hcuts
          rw [List.flatMap_singleton]
          exact hpre

/-- The loop does not outlast the deadline. -/
theorem loop_ends {deadline : Time} {passes : List Pass} {σ : Supervisor} {p : Pass}
    (hp : p ∈ passes) (hlate : deadline ≤ p.now) : ∃ τ, σ.loop deadline passes = some τ := by
  induction passes generalizing σ with
  | nil => cases hp
  | cons q rest ih =>
    rw [loop]
    split
    · exact ⟨_, rfl⟩
    · split
      · exact ⟨_, rfl⟩
      · rename_i hq
        split
        · rcases List.mem_cons.mp hp with rfl | hp
          · exact absurd hlate hq
          · exact ih hp
        · exact ⟨_, rfl⟩

end Supervisor

/-! ### What is printed -/

section Printed
variable {streams : Stream → List UInt8} {deadline : Time} {passes : List Pass}
  {waited : Option Exit} {o : Output}

/-- The stream of an output is what is kept of some start of the reads. -/
theorem prefix_of_reads (hsplit : ∀ s, Split (streams s) (chunks s (passes.flatMap Pass.reads)))
    {reads : List (Stream × List UInt8)} (hreads : reads <+: passes.flatMap Pass.reads)
    (s : Stream) : bytesOf s reads <+: streams s := by
  obtain ⟨rest, hrest⟩ := hreads
  have h := hsplit s
  rw [← hrest, chunks_append] at h
  exact h.prefix_of_append

theorem takeWhile_of_late {pre post : List Pass} {p : Pass}
    (hearly : ∀ q ∈ pre, q.now < deadline) (hlate : deadline ≤ p.now) :
    early deadline (pre ++ p :: post) = pre.flatMap Pass.reads := by
  rw [early, List.takeWhile_append_of_pos fun q hq => decide_eq_true (hearly q hq),
    List.takeWhile_cons_of_neg (by simpa using hlate), List.append_nil]

theorem prefix_early {pre post : List Pass} (hearly : ∀ q ∈ pre, q.now < deadline) :
    pre.flatMap Pass.reads <+: early deadline (pre ++ post) := by
  rw [early, List.takeWhile_append_of_pos fun q hq => decide_eq_true (hearly q hq),
    List.flatMap_append]
  exact ⟨_, rfl⟩

theorem early_prefix : early deadline passes <+: passes.flatMap Pass.reads := by
  obtain ⟨rest, hrest⟩ := List.takeWhile_prefix (l := passes) fun p => p.now < deadline
  refine ⟨rest.flatMap Pass.reads, ?_⟩
  rw [early, ← List.flatMap_append, hrest]

theorem length_bytesOf_le {s : Stream} {a b : List (Stream × List UInt8)} (h : a <+: b) :
    (bytesOf s a).length ≤ (bytesOf s b).length := by
  obtain ⟨rest, rfl⟩ := h
  rw [bytesOf_append, List.length_append]
  omega

/-- What an output says about the streams. -/
structure Printed (streams : Stream → List UInt8) (deadline : Time) (passes : List Pass)
    (waited : Option Exit) (o : Output) : Prop where
  kept : ∀ s, ∃ bytes, bytes <+: streams s ∧ bytes.length ≤ limit ∧
    o.stream s = Utf8.decodeLossy bytes
  failure : o.failure = none ∨ ∃ f : Failure, o.failure = some f.text ∧ o.exitCode = f.exitCode
  whole : o.failure = none → ∀ s, (streams s).length ≤ limit ∧
    o.stream s = Utf8.decodeLossy (streams s)
  ended : o.failure = none → ∃ e, waited = some e ∧ o.exitCode = e.returncode
  large : o.failure = some Failure.outputLimit.text ↔
    ∃ s, limit < (bytesOf s (early deadline passes)).length
  clean : (∀ s, (streams s).length ≤ limit ∧ [] ∈ chunks s (early deadline passes)) →
    waited ≠ none → o.failure = none

theorem text_eq_outputLimit {f : Failure} :
    f.text = Failure.outputLimit.text ↔ f = .outputLimit := by
  cases f <;> decide

theorem stream_output (τ : Supervisor) (exitCode : Int) (failure : Option Failure) (s : Stream) :
    (τ.output exitCode failure).stream s = Utf8.decodeLossy (τ.buffers s) := by
  cases s <;> rfl

/-- A process that ended, after both streams. -/
theorem printed_ended {τ : Supervisor} (e : Exit) (hbuffer : ∀ s, τ.buffers s = streams s)
    (hsmall : ∀ s, (streams s).length ≤ limit)
    (hlarge : ¬∃ s, limit < (bytesOf s (early deadline passes)).length) :
    Printed streams deadline passes (some e) (τ.output e.returncode none) where
  kept s := ⟨streams s, List.prefix_rfl, hsmall s, by rw [stream_output, hbuffer]⟩
  failure := Or.inl rfl
  whole _ s := ⟨hsmall s, by rw [stream_output, hbuffer]⟩
  ended _ := ⟨e, rfl, rfl⟩
  large := ⟨fun h => (by cases h), fun h => absurd h hlarge⟩
  clean _ _ := rfl

/-- A failure is recorded. -/
theorem printed_failed {τ : Supervisor} {f : Failure}
    (hkept : ∀ s, τ.buffers s <+: streams s ∧ (τ.buffers s).length ≤ limit)
    (hlarge : f = .outputLimit ↔ ∃ s, limit < (bytesOf s (early deadline passes)).length)
    (hclean : (∀ s, (streams s).length ≤ limit ∧ [] ∈ chunks s (early deadline passes)) →
      waited = none) :
    Printed streams deadline passes waited (τ.output f.exitCode (some f)) where
  kept s := ⟨τ.buffers s, (hkept s).1, (hkept s).2, stream_output τ _ _ s⟩
  failure := Or.inr ⟨f, rfl, rfl⟩
  whole h := by cases h
  ended h := by cases h
  large := by
    rw [← hlarge, ← text_eq_outputLimit]
    exact Option.some_inj
  clean h hwaited := absurd (hclean h) hwaited

/-- The loop ended with both streams. -/
theorem closed_whole
    (hsplit : ∀ s, Split (streams s) (chunks s (passes.flatMap Pass.reads)))
    {pre post : List Pass} {τ : Supervisor} (hpasses : passes = pre ++ post)
    (hclosed : τ.registered = []) (hkeeps : τ.Keeps (pre.flatMap Pass.reads)) (s : Stream) :
    τ.buffers s = streams s ∧ (streams s).length ≤ limit := by
  -- both streams ended, so what was read is all there is
  have hend : bytesOf s (pre.flatMap Pass.reads) = streams s ∧
      chunks s (post.flatMap Pass.reads) = [] := by
    have h := hsplit s
    rw [hpasses, List.flatMap_append, chunks_append] at h
    refine h.whole ?_
    have hout : s ∉ τ.registered := by
      rw [hclosed]
      exact List.not_mem_nil
    rw [hkeeps.registered, not_not] at hout
    exact hout
  refine ⟨(hkeeps.buffers s).trans hend.1, ?_⟩
  rw [← hend.1]
  exact hkeeps.small s

theorem supervise_printed
    (hsplit : ∀ s, Split (streams s) (chunks s (passes.flatMap Pass.reads)))
    (hrun : supervise deadline passes waited = some o) :
    Printed streams deadline passes waited o := by
  rw [supervise, Option.map_eq_some_iff] at hrun
  obtain ⟨τ, hloop, ho⟩ := hrun
  have hbounded : ∀ s, (bytesOf s (early deadline passes)).length ≤ (streams s).length :=
    fun s => (prefix_of_reads hsplit early_prefix s).length_le
  cases Supervisor.loop_spec Supervisor.start_keeps rfl hloop with
  | closed pre post hpasses hearly hnone hclosed hkeeps =>
    have hwhole := closed_whole hsplit hpasses hclosed hkeeps
    have hlarge : ¬∃ s, limit < (bytesOf s (early deadline passes)).length := by
      rintro ⟨s, hs⟩
      have hle := hbounded s
      have hsmall := (hwhole s).2
      omega
    rw [hnone] at ho
    cases waited with
    | some e =>
      cases ho
      exact printed_ended e (fun s => (hwhole s).1) (fun s => (hwhole s).2) hlarge
    | none =>
      cases ho
      refine printed_failed (fun s => ?_) ⟨fun h => (by cases h), fun h => absurd h hlarge⟩
        fun _ => rfl
      rw [(hwhole s).1]
      exact ⟨List.prefix_rfl, (hwhole s).2⟩
  | timeout pre p post hpasses hearly hlate htimeout hopen hkeeps =>
    rw [List.nil_append] at hkeeps
    have hearlyReads : early deadline passes = pre.flatMap Pass.reads := by
      rw [hpasses]
      exact takeWhile_of_late hearly hlate
    rw [htimeout] at ho
    cases ho
    refine printed_failed (fun s => ?_) ⟨fun h => (by cases h), fun h => ?_⟩ fun h => ?_
    · rw [hkeeps.buffers, ← hearlyReads]
      exact ⟨prefix_of_reads hsplit early_prefix s, hearlyReads ▸ hkeeps.small s⟩
    · obtain ⟨s, hs⟩ := h
      rw [hearlyReads] at hs
      exact absurd (hkeeps.small s) (by omega)
    · obtain ⟨s, hs⟩ := List.exists_mem_of_ne_nil _ hopen
      rw [hkeeps.registered, ← hearlyReads] at hs
      exact absurd (h s).2 hs
  | large pre post hpasses hearly reads hreads hcuts =>
    rw [List.nil_append] at hcuts
    have hstart : reads <+: early deadline passes := by
      rw [hpasses]
      exact hreads.trans (prefix_early hearly)
    obtain ⟨t, ht⟩ := hcuts.large
    have hle := length_bytesOf_le (s := t) hstart
    rw [hcuts.failure] at ho
    cases ho
    refine printed_failed (fun s => ?_) ⟨fun _ => ⟨t, by omega⟩, fun _ => rfl⟩ fun h => ?_
    · rw [hcuts.buffers, List.length_take]
      exact ⟨(List.take_prefix _ _).trans (prefix_of_reads hsplit (hstart.trans early_prefix) s),
        min_le_left _ _⟩
    · have hb := hbounded t
      have hsmall := (h t).1
      omega

end Printed

/-! ### The line -/

/-- What every line says: at most `limit` bytes of each stream, a small exit code,
and a failure that has a name. -/
structure Output.Sound (o : Output) : Prop where
  kept : ∀ s, ∃ bytes : List UInt8, bytes.length ≤ limit ∧ o.stream s = Utf8.decodeLossy bytes
  exitCode : -128 < o.exitCode ∧ o.exitCode < 256
  failure : o.failure = none ∨ ∃ f : Failure, o.failure = some f.text

theorem Printed.exitCode_range {streams : Stream → List UInt8} {deadline : Time}
    {passes : List Pass} {waited : Option Exit} {o : Output}
    (h : Printed streams deadline passes waited o) : -128 < o.exitCode ∧ o.exitCode < 256 := by
  rcases h.failure with hnone | ⟨f, _, hcode⟩
  · obtain ⟨e, _, hcode⟩ := h.ended hnone
    rw [hcode]
    cases e with
    | exited status =>
      have hlt := status.isLt
      rw [Exit.returncode]
      omega
    | signaled signal =>
      have hlt := signal.isLt
      rw [Exit.returncode]
      omega
  · rw [hcode]
    cases f <;> decide

theorem Printed.sound {streams : Stream → List UInt8} {deadline : Time} {passes : List Pass}
    {waited : Option Exit} {o : Output} (h : Printed streams deadline passes waited o) :
    o.Sound where
  kept s := by
    obtain ⟨bytes, _, hlen, hs⟩ := h.kept s
    exact ⟨bytes, hlen, hs⟩
  exitCode := h.exitCode_range
  failure := by
    rcases h.failure with hnone | ⟨f, hf, _⟩
    · exact Or.inl hnone
    · exact Or.inr ⟨f, hf⟩

theorem notStarted_sound (error : List Char) : (notStarted error).Sound where
  kept s := by
    cases s with
    | stdout => exact ⟨[], Nat.zero_le _, rfl⟩
    | stderr =>
      refine ⟨(error.flatMap String.utf8EncodeChar).take limit, ?_, rfl⟩
      rw [List.length_take]
      exact min_le_left _ _
  exitCode := by
    show -128 < (127 : Int) ∧ (127 : Int) < 256
    omega
  failure := Or.inl rfl

/-- An error that fits is printed as it is. -/
theorem notStarted_stderr {error : List Char}
    (h : (error.flatMap String.utf8EncodeChar).length ≤ limit) :
    (notStarted error).stderr = error := by
  show Utf8.decodeLossy ((error.flatMap String.utf8EncodeChar).take limit) = error
  rw [List.take_of_length_le h, Utf8.decodeLossy_encode]

theorem length_renderNum_le : ∀ n : Nat, n < 256 →
    (Json.renderNum n).length ≤ 4 ∧ (Json.renderNum (-n)).length ≤ 4 := by
  decide +kernel

theorem length_dumpStr (s : List Char) :
    (Flat.dumpStr s).length = (s.flatMap Flat.escape).length + 2 := by
  rw [Flat.dumpStr, List.length_cons, List.length_append, List.length_singleton]

theorem length_dumpMember (m : List Char × Scalar) : (Flat.dumpMember m).length =
    (Flat.dumpStr m.1).length + ((Flat.dumpScalar m.2).length + 2) := by
  rw [Flat.dumpMember, List.length_append, List.length_cons, List.length_cons]

/-- The line of an output with texts of at most `limit` bytes. -/
theorem length_line {o : Output}
    (hstream : ∀ s, ((o.stream s).flatMap Flat.escape).length ≤ 6 * limit)
    (hcode : (Json.renderNum o.exitCode).length ≤ 4)
    (hfailure : o.failure = none ∨ ∃ f : Failure, o.failure = some f.text) :
    o.line.length ≤ podLogLimit := by
  have htexts : ∀ s, (Flat.dumpScalar (.str (o.stream s))).length ≤ 6 * limit + 2 := by
    intro s
    rw [Flat.dumpScalar, length_dumpStr]
    exact Nat.add_le_add_right (hstream s) 2
  have hout : (Flat.dumpScalar (.str o.stdout)).length ≤ 6 * limit + 2 := htexts .stdout
  have herr : (Flat.dumpScalar (.str o.stderr)).length ≤ 6 * limit + 2 := htexts .stderr
  have hnum : (Flat.dumpScalar (.num o.exitCode)).length ≤ 4 := hcode
  have hlast : (Flat.dumpScalar (match o.failure with
      | some failure => .str failure
      | none => .null)).length ≤ 14 := by
    rcases hfailure with h | ⟨f, h⟩
    · rw [h]
      decide
    · rw [h]
      cases f <;> decide
  have hkeys : (Flat.dumpStr "stdout".toList).length = 8 ∧
      (Flat.dumpStr "stderr".toList).length = 8 ∧
      (Flat.dumpStr "exit_code".toList).length = 11 ∧
      (Flat.dumpStr "failure".toList).length = 9 := by decide
  rw [Output.line, Output.members, Flat.dumps]
  simp only [Flat.dumpMembers, length_dumpMember, List.length_append, List.length_cons,
    List.length_nil, hkeys]
  rw [limit] at hout herr
  rw [podLogLimit]
  omega

/-! ### Starts of a text -/

/-- The longest start of a text that has at most `n` bytes. -/
structure LongestStart (n : Nat) (text t : List Char) : Prop where
  start : t <+: text
  small : String.utf8Len t ≤ n
  longest : ∀ u, u <+: text → String.utf8Len u ≤ n → u <+: t

theorem truncateTo_longest (n : Nat) (text : List Char) :
    LongestStart n text (truncateTo n text) := by
  induction text generalizing n with
  | nil =>
    refine ⟨List.nil_prefix, Nat.zero_le _, fun u hu _ => ?_⟩
    rw [List.prefix_nil.mp hu]
    exact List.nil_prefix
  | cons c text ih =>
    rw [truncateTo]
    split
    · rename_i hfits
      obtain ⟨hstart, hsmall, hlongest⟩ := ih (n - c.utf8Size)
      refine ⟨(List.prefix_cons_inj c).mpr hstart, ?_, fun u hu hlen => ?_⟩
      · rw [String.utf8Len_cons]
        omega
      · cases u with
        | nil => exact List.nil_prefix
        | cons d u =>
          obtain ⟨rfl, hu'⟩ := List.cons_prefix_cons.mp hu
          rw [String.utf8Len_cons] at hlen
          exact (List.prefix_cons_inj d).mpr (hlongest u hu' (by omega))
    · rename_i hfits
      refine ⟨List.nil_prefix, Nat.zero_le _, fun u hu hlen => ?_⟩
      cases u with
      | nil => exact List.nil_prefix
      | cons d u =>
        obtain ⟨rfl, _⟩ := List.cons_prefix_cons.mp hu
        rw [String.utf8Len_cons] at hlen
        exact absurd hlen (by omega)

theorem LongestStart.eq_self {n : Nat} {text t : List Char} (h : LongestStart n text t)
    (hlen : String.utf8Len text ≤ n) : t = text :=
  h.start.eq_of_length_le (h.longest text List.prefix_rfl hlen).length_le

theorem utf8Len_of_ascii {l : List Char} (h : ∀ c ∈ l, c.toNat < 128) :
    String.utf8Len l = l.length := by
  induction l with
  | nil => rfl
  | cons c l ih =>
    have hc : c.utf8Size = 1 := by
      rw [Char.utf8Size, if_pos]
      exact Nat.le_of_lt_succ (h c List.mem_cons_self)
    rw [String.utf8Len_cons, ih fun d hd => h d (List.mem_cons_of_mem _ hd), hc, List.length_cons]

theorem ascii_line (o : Output) : ∀ c ∈ o.line, c.toNat < 128 := by
  intro c hc
  rw [Output.line, List.mem_append, List.mem_singleton] at hc
  rcases hc with hc | rfl
  · exact Flat.ascii_dumps _ c hc
  · decide

/-! ### From the line to the response -/

theorem ofMembers_members {o : Output} (h : -2 ^ 31 ≤ o.exitCode ∧ o.exitCode < 2 ^ 31) :
    Output.ofMembers o.members = some o := by
  have hcode : i32Member "exit_code" o.members = some o.exitCode := if_pos h
  have hfailure : strMemberIfSome "failure" o.members = some o.failure := by
    cases hf : o.failure with
    | none =>
      rw [Output.members, hf]
      rfl
    | some f =>
      rw [Output.members, hf]
      rfl
  rw [Output.ofMembers, hcode, hfailure]
  rfl

theorem members_keys (o : Output) : (o.members.map Prod.fst).Nodup := by
  have hkeys : ["stdout".toList, "stderr".toList, "exit_code".toList,
      "failure".toList].Nodup := by decide
  exact hkeys

section Pipeline
variable {fromStr : List Char → Option Output} {streams : Stream → List UInt8} {deadline : Time}
  {passes : List Pass} {waited : Option Exit} {o : Output}

/-- **The line fits in the log of a pod.** -/
theorem Output.Sound.line_fits (h : o.Sound) : String.utf8Len o.line ≤ podLogLimit := by
  rw [utf8Len_of_ascii (ascii_line o)]
  refine length_line (fun s => ?_) ?_ h.failure
  · obtain ⟨bytes, hlen, hs⟩ := h.kept s
    rw [hs]
    exact (Flat.length_escape_decodeLossy bytes).trans (Nat.mul_le_mul_left 6 hlen)
  · have hrange := h.exitCode
    by_cases hneg : o.exitCode < 0
    · have hlen := (length_renderNum_le o.exitCode.natAbs (by omega)).2
      rwa [show -(o.exitCode.natAbs : Int) = o.exitCode by omega] at hlen
    · have hlen := (length_renderNum_le o.exitCode.natAbs (by omega)).1
      rwa [show (o.exitCode.natAbs : Int) = o.exitCode by omega] at hlen

/-- **The executor reads what the supervisor printed.** -/
theorem Output.Sound.decodes (hdecodes : Decodes fromStr) (h : o.Sound) :
    decodeOutput fromStr 0 (String.ofList (truncateTo podLogLimit o.line)) = .ok o := by
  have hrange := h.exitCode
  have hread : fromStr o.line = some o := by
    rw [hdecodes o.line o.members (Flat.read_dumps o.members rfl) (members_keys o)]
    exact ofMembers_members (by omega)
  rw [(truncateTo_longest podLogLimit o.line).eq_self h.line_fits, decodeOutput]
  simp only [String.toList_ofList, hread]
  rfl

/-- The supervisor ended with `code`, wherever its pod can be looked at. -/
def EndsWith (code : Int) (polls : List Poll) : Prop :=
  ∀ p ∈ polls, ∀ t, p.terminated = .ok t → t.exitCode = code

/-- What the looks at a job show of a supervisor that ended with a code: its line is
in the log where it ended well, and anything where it did not. -/
def Shows (o : Output) (code : Int) (polls : List Poll) : Prop :=
  EndsWith code polls ∧
    (code = 0 → ∀ p ∈ polls, ∀ log, p.log = .ok log → log = truncateTo podLogLimit o.line)

/-- What a job comes to is what one of the looks shows. -/
theorem waitJob_cases {polls : List Poll} {outcome : JobOutcome}
    (h : waitJob polls = some (.ok outcome)) :
    outcome = .failed .timedOut ∨ outcome = .studentFailure "memory_limit" ∨
      ∃ p ∈ polls, ∃ t log, p.terminated = .ok t ∧ p.log = .ok log ∧
        outcome = .output t.exitCode (String.ofList log) := by
  induction polls with
  | nil => cases h
  | cons p rest ih =>
    rw [waitJob] at h
    split at h
    · cases h
      exact Or.inl rfl
    · split at h
      · cases h
      · cases h
        exact Or.inl rfl
      · split at h
        · split at h
          · cases h
          · rename_i t ht
            split at h
            · cases h
              exact Or.inr (Or.inl rfl)
            · split at h
              · cases h
              · rename_i log hlog
                cases h
                exact Or.inr (Or.inr ⟨p, List.mem_cons_self, t, log, ht, hlog, rfl⟩)
        · rcases ih h with hlate | hmemory | ⟨q, hq, hrest⟩
          · exact Or.inl hlate
          · exact Or.inr (Or.inl hmemory)
          · exact Or.inr (Or.inr ⟨q, List.mem_cons_of_mem _ hq, hrest⟩)

/-- A command that failed: no text of it, and a code that is not 0. -/
structure Refused (r : Response) : Prop where
  failure : r.failure ≠ none
  exitCode : r.exitCode = 124 ∨ r.exitCode = 125
  stdout : r.stdout = ""
  truncated : r.truncated = false

/-- What the script is told about a command. -/
structure Told (o : Output) (code : Int) (r : Response) : Prop where
  success : r.failure = none → code = 0 ∧ o.failure = none ∧ r.exitCode = o.exitCode ∧
    LongestStart 65536 o.stdout r.stdout.toList ∧
    (r.truncated = true ↔ r.stdout.toList ≠ o.stdout)
  failure : r.failure ≠ none → Refused r

theorem Refused.told {code : Int} {r : Response} (h : Refused r) : Told o code r where
  success hnone := absurd hnone h.failure
  failure _ := h

theorem response_of_failure {e : Execution} {reason : String} {r : Response}
    (he : e.outcome = .studentFailure reason) (h : e.response = some r) :
    r.failure = some reason ∧ Refused r := by
  rw [Execution.response, he] at h
  cases h
  refine ⟨rfl, fun h => (by cases h), ?_, rfl, rfl⟩
  dsimp only
  split
  · exact Or.inl rfl
  · exact Or.inr rfl

/-- A job that is over in time is answered as one that ran out of its own. -/
theorem response_of_timeout {e : Execution} {r : Response} (he : e.outcome = .failed .timedOut)
    (h : e.response = some r) : Refused r := by
  rw [Execution.response, he] at h
  dsimp only at h
  split at h
  · cases h
    exact ⟨fun h => (by cases h), Or.inl rfl, rfl, rfl⟩
  · cases h

theorem told_of_output {o : Output} {e : Execution} {r : Response} (hnone : o.failure = none)
    (he : e.outcome = .output o.exitCode (String.ofList o.stdout)) (h : e.response = some r) :
    Told o 0 r ∧ r.failure = none := by
  rw [Execution.response, he] at h
  cases h
  refine ⟨⟨fun _ => ⟨rfl, hnone, rfl, ?_⟩, fun hsome => absurd rfl hsome⟩, rfl⟩
  have hlongest := truncateTo_longest 65536 o.stdout
  have hlen : Text.len (String.ofList o.stdout) = String.utf8Len o.stdout :=
    String.utf8ByteSize_ofList _
  dsimp only
  rw [hlen]
  split
  · rename_i hcut
    rw [String.toList_ofList, String.toList_ofList]
    refine ⟨hlongest, fun _ heq => ?_, fun _ => decide_eq_true hcut⟩
    have hsmall := hlongest.small
    rw [heq] at hsmall
    exact absurd hcut (by omega)
  · rename_i hfits
    have hself := hlongest.eq_self (Nat.le_of_not_lt hfits)
    rw [String.toList_ofList]
    rw [hself] at hlongest
    exact ⟨hlongest, fun h => absurd (of_decide_eq_true h) hfits, fun h => absurd rfl h⟩

section Response
variable {code : Int} {polls : List Poll} {outcome : Except Error JobOutcome} {j : JobWatch}
  {logs : List RunLog} {e : Execution} {r : Response}

/-- What is no output is passed on as it is. -/
theorem wait_of_not_output (h : ∀ code log, outcome ≠ .ok (.output code log)) :
    (j.wait fromStr outcome logs).1 = outcome := by
  rw [JobWatch.wait.eq_def]
  split
  · exact absurd rfl (h _ _)
  · rfl

/-- A job whose time is over is a failure. -/
theorem refused_of_late (hwait : (j.wait fromStr (.ok (.failed .timedOut)) logs).1 = .ok e.outcome)
    (hr : e.response = some r) : Refused r := by
  rw [wait_of_not_output fun _ _ h => by cases h] at hwait
  exact response_of_timeout (Except.ok.inj hwait).symm hr

/-- A command that failed stays a failure. -/
theorem refused_of_failure {reason : String}
    (hwait : (j.wait fromStr (.ok (.studentFailure reason)) logs).1 = .ok e.outcome)
    (hr : e.response = some r) : Refused r := by
  rw [wait_of_not_output fun _ _ h => by cases h] at hwait
  exact (response_of_failure (Except.ok.inj hwait).symm hr).2

/-- A supervisor that ended with another code than 0 is a failure, whatever is in the log. -/
theorem refused_of_code {log : String} (hworkflow : j.workflow = true) (hcode : code ≠ 0)
    (hwait : (j.wait fromStr (.ok (.output code log)) logs).1 = .ok e.outcome)
    (hr : e.response = some r) : Refused r := by
  rw [JobWatch.wait.eq_def, hworkflow] at hwait
  dsimp only at hwait
  rw [if_pos hcode] at hwait
  exact (response_of_failure (Except.ok.inj hwait).symm hr).2

/-- **A supervisor that was killed or failed** is never a success, whatever it printed. -/
theorem refused_of_abnormal (hworkflow : j.workflow = true) (hcode : code ≠ 0)
    (hends : EndsWith code polls) (hpolls : waitJob polls = some outcome)
    (hwait : (j.wait fromStr outcome logs).1 = .ok e.outcome) (hr : e.response = some r) :
    Refused r := by
  cases outcome with
  | error err =>
    rw [wait_of_not_output fun _ _ h => by cases h] at hwait
    cases hwait
  | ok outcome =>
    rcases waitJob_cases hpolls with rfl | rfl | ⟨p, hp, t, log, ht, _, rfl⟩
    · exact refused_of_late hwait hr
    · exact refused_of_failure hwait hr
    · rw [hends p hp t ht] at hwait
      exact refused_of_code hworkflow hcode hwait hr

/-- **The error of a command that does not start** is read as it is, if it fits. -/
theorem notStarted_read (hdecodes : Decodes fromStr) {error : List Char}
    (h : (error.flatMap String.utf8EncodeChar).length ≤ limit) :
    ∃ o, decodeOutput fromStr 0
        (String.ofList (truncateTo podLogLimit (notStarted error).line)) = .ok o ∧
      o.exitCode = 127 ∧ o.stderr = error :=
  ⟨_, (notStarted_sound error).decodes hdecodes, rfl, notStarted_stderr h⟩

/-- What the response says of a line that was read. -/
theorem Output.Sound.told_of_line (hdecodes : Decodes fromStr) (h : o.Sound)
    (hworkflow : j.workflow = true)
    (hwait : (j.wait fromStr (.ok (.output 0 (String.ofList (truncateTo podLogLimit o.line))))
      logs).1 = .ok e.outcome) (hr : e.response = some r) :
    Told o 0 r ∧ r.failure = o.failure.map String.ofList := by
  rw [JobWatch.wait.eq_def, hworkflow] at hwait
  dsimp only at hwait
  rw [if_neg (by simp), h.decodes hdecodes] at hwait
  dsimp only at hwait
  rcases h.failure with hnone | ⟨f, hf⟩
  · rw [Output.outcome, hnone] at hwait
    obtain ⟨htold, hnone'⟩ := told_of_output hnone (Except.ok.inj hwait).symm hr
    refine ⟨htold, ?_⟩
    rw [hnone, hnone']
    rfl
  · have houtcome : o.outcome = .ok (.studentFailure (String.ofList f.text)) := by
      rw [Output.outcome, hf]
      cases f <;> rfl
    rw [houtcome] at hwait
    obtain ⟨hfailure, hrefused⟩ := response_of_failure (Except.ok.inj hwait).symm hr
    refine ⟨hrefused.told, ?_⟩
    rw [hfailure, hf]
    rfl

/-- **What the response says**, whatever the looks at the job show. -/
theorem Output.Sound.told (hdecodes : Decodes fromStr) (h : o.Sound)
    (hworkflow : j.workflow = true) (hshows : Shows o code polls)
    (hpolls : waitJob polls = some outcome)
    (hwait : (j.wait fromStr outcome logs).1 = .ok e.outcome) (hr : e.response = some r) :
    Told o code r ∧
      ∀ log, outcome = .ok (.output 0 log) → r.failure = o.failure.map String.ofList := by
  by_cases hcode : code = 0
  · subst hcode
    cases outcome with
    | error err =>
      rw [wait_of_not_output fun _ _ h => by cases h] at hwait
      cases hwait
    | ok outcome =>
      rcases waitJob_cases hpolls with rfl | rfl | ⟨p, hp, t, log, ht, hlog, rfl⟩
      · exact ⟨(refused_of_late hwait hr).told, fun _ h => by cases h⟩
      · exact ⟨(refused_of_failure hwait hr).told, fun _ h => by cases h⟩
      · rw [hshows.1 p hp t ht, hshows.2 rfl p hp log hlog] at hwait
        obtain ⟨htold, hfailure⟩ := h.told_of_line hdecodes hworkflow hwait hr
        exact ⟨htold, fun _ _ => hfailure⟩
  · refine ⟨(refused_of_abnormal hworkflow hcode hshows.1 hpolls hwait hr).told, fun log h => ?_⟩
    subst h
    -- the code of an output is the code of the pod
    rcases waitJob_cases hpolls with h | h | ⟨p, hp, t, log', ht, _, h⟩
    · cases h
    · cases h
    · rw [JobOutcome.output.injEq] at h
      exact absurd ((hshows.1 p hp t ht).symm.trans h.1.symm) hcode

/-- **A command that does not start** ends with the code 127 and no text. -/
theorem notStarted_told (hdecodes : Decodes fromStr) {error : List Char}
    (hworkflow : j.workflow = true) (hshows : Shows (notStarted error) code polls)
    (hpolls : waitJob polls = some outcome)
    (hwait : (j.wait fromStr outcome logs).1 = .ok e.outcome) (hr : e.response = some r) :
    (r.failure = none → r.exitCode = 127 ∧ r.stdout = "" ∧ r.truncated = false) ∧
      (r.failure ≠ none → Refused r) := by
  have htold := ((notStarted_sound error).told hdecodes hworkflow hshows hpolls hwait hr).1
  refine ⟨fun hnone => ?_, htold.failure⟩
  obtain ⟨_, _, hcode, hlongest, htruncated⟩ := htold.success hnone
  have hempty : r.stdout.toList = [] := List.prefix_nil.mp hlongest.start
  refine ⟨hcode, String.toList_eq_nil_iff.mp hempty, ?_⟩
  rw [Bool.eq_false_iff, ne_eq, htruncated]
  exact fun hne => hne hempty

end Response

/-- **The transcript of a command is faithful.**  However the streams are read,
the supervisor ends by the deadline, its line fits in the log and is read back
with the texts of at most 64 KiB of each stream; a stream of more than 64 KiB
before the deadline, and only that, is an output limit.  A response without a
failure has the exit code of the student and the longest start of the text that
fits; with a failure it has no text and a code that is not 0, and a supervisor
that was killed or failed is never a success. -/
theorem faithful (hdecodes : Decodes fromStr)
    (hsplit : ∀ s, Split (streams s) (chunks s (passes.flatMap Pass.reads))) :
    ((∃ p ∈ passes, deadline ≤ p.now) → ∃ o, supervise deadline passes waited = some o) ∧
    (∀ o, supervise deadline passes waited = some o →
      String.utf8Len o.line ≤ podLogLimit ∧
      decodeOutput fromStr 0 (String.ofList (truncateTo podLogLimit o.line)) = .ok o ∧
      (∀ s, ∃ n ≤ limit, o.stream s = Utf8.decodeLossy ((streams s).take n)) ∧
      (o.failure = none → (∀ s, o.stream s = Utf8.decodeLossy (streams s)) ∧
        ∃ e, waited = some e ∧ o.exitCode = e.returncode) ∧
      (o.failure = some Failure.outputLimit.text ↔
        ∃ s, limit < (bytesOf s (early deadline passes)).length) ∧
      ((∀ s, (streams s).length ≤ limit ∧ [] ∈ chunks s (early deadline passes)) →
        waited ≠ none → o.failure = none) ∧
      ∀ (code : Int) polls outcome (j : JobWatch) logs (e : Execution) r, j.workflow = true →
        Shows o code polls → waitJob polls = some outcome →
        (j.wait fromStr outcome logs).1 = .ok e.outcome → e.response = some r →
        Told o code r ∧
          ∀ log, outcome = .ok (.output 0 log) → r.failure = o.failure.map String.ofList) ∧
    ∀ (code : Int) polls outcome (j : JobWatch) logs (e : Execution) r, j.workflow = true →
      code ≠ 0 → EndsWith code polls → waitJob polls = some outcome →
      (j.wait fromStr outcome logs).1 = .ok e.outcome → e.response = some r → Refused r := by
  refine ⟨?_, fun o hrun => ?_, ?_⟩
  · rintro ⟨p, hp, hlate⟩
    obtain ⟨τ, hτ⟩ := Supervisor.loop_ends (σ := .start) hp hlate
    rw [supervise, hτ]
    exact ⟨_, rfl⟩
  · have h := supervise_printed hsplit hrun
    refine ⟨h.sound.line_fits, h.sound.decodes hdecodes, fun s => ?_,
      fun hnone => ⟨fun s => (h.whole hnone s).2, h.ended hnone⟩, h.large, h.clean, ?_⟩
    · obtain ⟨bytes, hstart, hlen, hs⟩ := h.kept s
      refine ⟨bytes.length, hlen, ?_⟩
      rw [hs, ← List.prefix_iff_eq_take.mp hstart]
    · intro code polls outcome j logs e r hworkflow hshows hpolls hwait hr
      exact h.sound.told hdecodes hworkflow hshows hpolls hwait hr
  · intro code polls outcome j logs e r hworkflow hcode hends hpolls hwait hr
    exact refused_of_abnormal hworkflow hcode hends hpolls hwait hr

end Pipeline

end Transcripts

namespace Sample

open Transcripts

/-- A decoder of outputs. -/
def decoder (text : List Char) : Option Output := (Flat.read text).bind Output.ofMembers

theorem decoder_decodes : Decodes decoder := by
  intro text members h _
  rw [decoder, h]
  rfl

/-- A command that prints one character. -/
def printed : Stream → List UInt8
  | .stdout => [97]
  | .stderr => []

/-- It ends at once. -/
def quick : List Pass := [⟨0, [(.stdout, [97])]⟩, ⟨1, [(.stdout, []), (.stderr, [])]⟩]

/-- It goes on until the deadline. -/
def stuck : List Pass := [⟨0, [(.stdout, [97])]⟩, ⟨30, []⟩]

theorem quick_split : ∀ s, Split (printed s) (chunks s (quick.flatMap Pass.reads)) := by
  intro s
  cases s with
  | stdout => exact .chunk [97] (List.cons_ne_nil _ _) (by decide) .ended
  | stderr => exact .ended

theorem stuck_split : ∀ s, Split (printed s) (chunks s (stuck.flatMap Pass.reads)) := by
  intro s
  cases s with
  | stdout => exact .chunk [97] (List.cons_ne_nil _ _) (by decide) (.unread [])
  | stderr => exact .unread []

def quickOutput : Output := ⟨['a'], [], 0, none⟩

def stuckOutput : Output := ⟨['a'], [], 124, some Failure.timeout.text⟩

/-- The pod of a supervisor that ended well. -/
def looks (o : Output) : List Poll :=
  [⟨false, .ok false, true, .ok ⟨false, 0⟩, .ok (truncateTo podLogLimit o.line)⟩]

theorem looks_shows (o : Output) : Shows o 0 (looks o) := by
  refine ⟨fun p hp t ht => ?_, fun _ p hp log hlog => ?_⟩
  · cases List.mem_singleton.mp hp
    cases ht
    rfl
  · cases List.mem_singleton.mp hp
    cases hlog
    rfl

/-- The pod of a supervisor that was killed before it printed anything. -/
def killed : List Poll := [⟨false, .ok false, true, .ok ⟨false, 137⟩, .ok []⟩]

theorem killed_endsWith : EndsWith 137 killed := by
  intro p hp t ht
  cases List.mem_singleton.mp hp
  cases ht
  rfl

def watch : JobWatch := ⟨"run", true, true, none⟩

/-- The execution of the first command. -/
def quickRun : Execution := ⟨[], script ⟨0, Nat.zero_lt_two⟩, .output 0 "a", false⟩

def killedRun : Execution :=
  ⟨[], script ⟨0, Nat.zero_lt_two⟩, .studentFailure "execution_failed", false⟩

/-- **The script gets the output of the first command**, and a failure where the
supervisor was killed. -/
theorem faithful_quick : (∃ r, quickRun.response = some r ∧ r.stdout = "a" ∧
      Told quickOutput 0 r) ∧
    ∃ r, killedRun.response = some r ∧ r.exitCode = 125 ∧ Refused r := by
  have hrun : supervise 30 quick (some (.exited 0)) = some quickOutput := by rfl
  have hwait : (watch.wait decoder (.ok (.output 0
      (String.ofList (truncateTo podLogLimit quickOutput.line)))) []).1 =
      .ok (.output 0 "a") := by decide +kernel
  have hpolls : waitJob (looks quickOutput) = some (.ok (.output 0
      (String.ofList (truncateTo podLogLimit quickOutput.line)))) := by rfl
  have hkilled : (watch.wait decoder (.ok (.output 137 "")) []).1 =
      .ok (.studentFailure "execution_failed") := by rfl
  have hresponse : quickRun.response = some ⟨0, 0, "a", false, none⟩ := by decide +kernel
  have hrefused : killedRun.response = some ⟨0, 125, "", false, some "execution_failed"⟩ := by
    decide +kernel
  obtain ⟨_, hprinted, habnormal⟩ := @faithful decoder printed 30 quick (some (.exited 0))
    decoder_decodes quick_split
  have h := (hprinted quickOutput hrun).2.2.2.2.2.2
  refine ⟨⟨⟨0, 0, "a", false, none⟩, hresponse, rfl, ?_⟩,
    ⟨0, 125, "", false, some "execution_failed"⟩, hrefused, rfl, ?_⟩
  · exact (h 0 (looks quickOutput) _ watch [] quickRun _ rfl (looks_shows quickOutput) hpolls hwait
      hresponse).1
  · exact habnormal 137 killed (.ok (.output 137 "")) watch [] killedRun _ rfl (by decide)
      killed_endsWith rfl hkilled hrefused

/-- What was printed before a timeout is not in the response. -/
theorem timeout_withholds : supervise 30 stuck none = some stuckOutput ∧
    (∀ s, Split (printed s) (chunks s (stuck.flatMap Pass.reads))) ∧
    ∃ outcome, waitJob (looks stuckOutput) = some outcome ∧
      ∃ e : Execution, (watch.wait decoder outcome []).1 = .ok e.outcome ∧
        ∃ r, e.response = some r ∧ ¬LongestStart 65536 stuckOutput.stdout r.stdout.toList := by
  refine ⟨by rfl, stuck_split, _, rfl, ⟨[], script 0, .studentFailure "timeout", false⟩, ?_,
    ⟨0, 124, "", false, some "timeout"⟩, by decide +kernel, fun h => ?_⟩
  · decide +kernel
  · have hlong := h.longest ['a'] List.prefix_rfl (by decide)
    have hlen := hlong.length_le
    exact absurd hlen (by decide)

end Sample

end Grading
