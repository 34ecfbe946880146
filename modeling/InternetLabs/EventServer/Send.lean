/-
# `InternetLabs.EventServer.Send` — what the socket gets while a batch is answered

Whatever `send` does, the bytes accepted and the bytes still in the buffer behind
`position` are together the parts built so far: `Progress`, kept by every call.
`send_in_order` reads it off for a whole answer.
-/
import InternetLabs.EventServer.Reach

namespace InternetLabs.EventServer

open InternetLabs

/-! ## The data in the buffer -/

/-- The socket did not fail, and the server was not told to stop. -/
def SendOutcome.Ordinary : SendOutcome → Prop
  | .accepted _ => True
  | .wouldBlock => True
  | .interrupted serverRunning => serverRunning = true
  | .reset => False
  | .failed => False

theorem Buffer.unsent_eq (b : Buffer) :
    b.unsent = (b.data.drop b.position).take (b.length - b.position) := by
  rw [Buffer.unsent, Buffer.contents, List.drop_take]

@[simp] theorem Buffer.unsent_of_position_zero {b : Buffer} (h : b.position = 0) :
    b.unsent = b.contents := by
  rw [Buffer.unsent, h, List.drop_zero]

theorem Buffer.unsent_eq_nil {b : Buffer} (h : b.length - b.position = 0) : b.unsent = [] := by
  rw [Buffer.unsent_eq, h, List.take_zero]

theorem Client.unsent_advance (c : Client) {n : Nat}
    (hn : n ≤ c.sendBuf.length - c.sendBuf.position) :
    c.sendBuf.unsent = (c.sendBuf.data.drop c.sendBuf.position).take n
      ++ (c.advance n).sendBuf.unsent := by
  obtain ⟨k, hk⟩ : ∃ k, c.sendBuf.length - c.sendBuf.position = n + k := Nat.exists_eq_add_of_le hn
  have hrest : c.sendBuf.length - (c.sendBuf.position + n) = k := by
    rw [← Nat.sub_sub, hk, Nat.add_sub_cancel_left]
  rw [Buffer.unsent_eq, Buffer.unsent_eq, hk, List.take_add]
  simp only [Client.advance, hrest, List.drop_drop]

/-- What `send_data` does to a client while the socket does not fail: it moves the
position over what is accepted. -/
structure SendData.Spec (c : Client) (r : SendData) : Prop where
  client : ∃ n, r.client = c.advance n
  unsent : c.sendBuf.unsent = r.accepted ++ r.client.sendBuf.unsent
  script : ∀ o ∈ r.script, o.Ordinary
  done : r.ret = some 0 → r.client.sendBuf.unsent = []

theorem sendData_spec {script : List SendOutcome} (h : ∀ o ∈ script, o.Ordinary) (c : Client) :
    (sendData script c).Spec c := by
  induction script generalizing c with
  | nil =>
      by_cases hleft : c.sendBuf.length - c.sendBuf.position = 0
      · rw [sendData_done hleft]
        exact ⟨⟨0, rfl⟩, rfl, h, fun _ => Buffer.unsent_eq_nil hleft⟩
      · rw [sendData_nil hleft]
        exact ⟨⟨0, rfl⟩, rfl, h, nofun⟩
  | cons o script ih =>
      have hrest : ∀ o ∈ script, o.Ordinary := fun o ho => h o (List.mem_cons_of_mem _ ho)
      by_cases hleft : c.sendBuf.length - c.sendBuf.position = 0
      · rw [sendData_done hleft]
        exact ⟨⟨0, rfl⟩, rfl, h, fun _ => Buffer.unsent_eq_nil hleft⟩
      cases o with
      | accepted k =>
          rw [sendData_accepted hleft]
          obtain ⟨⟨n, hclient⟩, hunsent, hscript, hdone⟩ :=
            ih hrest (c.advance (min (k + 1) (c.sendBuf.length - c.sendBuf.position)))
          refine ⟨⟨min (k + 1) (c.sendBuf.length - c.sendBuf.position) + n, ?_⟩, ?_, hscript,
            hdone⟩
          · rw [Client.advance_advance] at hclient
            exact hclient
          · rw [Client.unsent_advance c (Nat.min_le_right _ _), hunsent, List.append_assoc]
      | wouldBlock =>
          rw [sendData_wouldBlock hleft]
          exact ⟨⟨0, rfl⟩, rfl, hrest, nofun⟩
      | interrupted serverRunning =>
          have hrun : serverRunning = true := h _ List.mem_cons_self
          rw [sendData_interrupted hleft, hrun]
          exact ih hrest c
      | reset => exact (h _ List.mem_cons_self).elim
      | failed => exact (h _ List.mem_cons_self).elim

/-! ## The parts

A response has two parts, a header and a body, which are built and sent one after the
other. -/

/-- The parts of the responses to `n` requests, in the order they are sent. -/
def parts : Nat → List (Part × Nat)
  | 0 => []
  | n + 1 => parts n ++ [(.header, n), (.body, n)]

theorem parts_prefix {m n : Nat} (h : m ≤ n) : parts m <+: parts n := by
  induction h with
  | refl => exact List.prefix_refl _
  | step _ ih => exact ih.trans (List.prefix_append _ _)

theorem parts_header_prefix {m n : Nat} (h : m < n) : parts m ++ [(.header, m)] <+: parts n :=
  (List.prefix_append (parts m ++ [(.header, m)]) [(.body, m)]).trans
    (by simpa [parts] using parts_prefix (Nat.succ_le_of_lt h))

/-- The part a builder made, and for which request. -/
def Built.label (b : Built) : Part × Nat := (b.part, b.request)

def logBytes (log : List Built) : Bytes := (log.map (·.bytes)).flatten

theorem logBytes_concat (log : List Built) (b : Built) :
    logBytes (log ++ [b]) = logBytes log ++ b.bytes := by
  simp [logBytes]

/-! ## The invariant rule

A property of the log, the bytes accepted and the client is kept by an answer if it
is kept by its three steps: sending, building a body, building the next header.
`W` says which worlds the builders may see. -/

/-- The three steps keep `I`. -/
structure Kept (W : World → Prop) (I : List Built → Bytes → Client → Prop) : Prop where
  send : ∀ {log acc c script}, I log acc c → (∀ o ∈ script, SendOutcome.Ordinary o) →
    I log (acc ++ (sendData script c).accepted) (sendData script c).client
  body : ∀ {log acc c w c'}, I log acc c → c.state = .sendingHeaders → c.sendBuf.unsent = [] →
    W w → buildBody w { c with sendBuf := c.sendBuf.clear } = some c' →
    I (log ++ [⟨.body, c'.curRequest, c'.sendBuf.contents⟩]) acc { c' with state := .sendingBody }
  header : ∀ {log acc c w c'}, I log acc c → c.state = .sendingBody → c.sendBuf.unsent = [] →
    c.curRequest + 1 < c.numRequests → W w → buildHeader w { c with
      curRequest := c.curRequest + 1, state := .sendingHeaders, sendBuf := c.sendBuf.rewind }
      = some c' →
    I (log ++ [⟨.header, c'.curRequest, c'.sendBuf.contents⟩]) acc c'

theorem Kept.and {W : World → Prop} {I J : List Built → Bytes → Client → Prop}
    (hI : Kept W I) (hJ : Kept W J) : Kept W fun log acc c => I log acc c ∧ J log acc c where
  send h hord := ⟨hI.send h.1 hord, hJ.send h.2 hord⟩
  body h hstate hunsent hw hbuild :=
    ⟨hI.body h.1 hstate hunsent hw hbuild, hJ.body h.2 hstate hunsent hw hbuild⟩
  header h hstate hunsent hnext hw hbuild :=
    ⟨hI.header h.1 hstate hunsent hnext hw hbuild, hJ.header h.2 hstate hunsent hnext hw hbuild⟩

theorem Kept.mono {W W' : World → Prop} {I : List Built → Bytes → Client → Prop}
    (hI : Kept W I) (hW : ∀ w, W' w → W w) : Kept W' I where
  send h hord := hI.send h hord
  body h hstate hunsent hw hbuild := hI.body h hstate hunsent (hW _ hw) hbuild
  header h hstate hunsent hnext hw hbuild := hI.header h hstate hunsent hnext (hW _ hw) hbuild

/-- The next builder is undefined in the world `w`. -/
def Client.Stuck (w : World) (c : Client) : Prop :=
  c.sendBuf.unsent = [] ∧
    (c.state = .sendingHeaders ∧ buildBody w { c with sendBuf := c.sendBuf.clear } = none ∨
      c.state = .sendingBody ∧ c.curRequest + 1 < c.numRequests ∧ buildHeader w { c with
        curRequest := c.curRequest + 1, state := .sendingHeaders, sendBuf := c.sendBuf.rewind }
        = none)

/-- What holds after calls that began with `I log acc`: `I` of what is logged and
accepted by now, and of the client, which has nothing left to send if it is back to
receiving, and is stuck if a builder is undefined. -/
def Sent.Spec (W : World → Prop) (I : List Built → Bytes → Client → Prop) (log : List Built)
    (acc : Bytes) (r : Sent) : Prop :=
  match r.ending with
  | .returned 0 c' => ∃ c, I (log ++ r.built) (acc ++ r.accepted) c ∧ c.state = .sendingBody ∧
      c.sendBuf.unsent = [] ∧ c.numRequests ≤ c.curRequest + 1 ∧ c' = c.finish
  | .returned (_ + 1) c => I (log ++ r.built) (acc ++ r.accepted) c
  | .sending => ∃ c, I (log ++ r.built) (acc ++ r.accepted) c
  | .undefined => ∃ c w, I (log ++ r.built) (acc ++ r.accepted) c ∧ W w ∧ c.Stuck w

/-- What an environment gives: an ordinary socket, and builders that see a world of
`W`. -/
structure SendEnv.Ordinary (W : World → Prop) (env : SendEnv) : Prop where
  script : ∀ o ∈ env.script, o.Ordinary
  body : W env.body
  header : W env.header

/-- Calls of `send_responses`, one for each environment, until one returns 0. -/
def answer : List SendEnv → Client → Sent
  | [], c => ⟨[], [], .returned 1 c⟩
  | env :: envs, c =>
      let call := sendResponses env c
      match call.ending with
      | .returned (_ + 1) c =>
          let rest := answer envs c
          { accepted := call.accepted ++ rest.accepted
            built := call.built ++ rest.built
            ending := rest.ending }
      | _ => call

section Kept
variable {W : World → Prop} {I : List Built → Bytes → Client → Prop} (hI : Kept W I)
variable {log : List Built} {acc : Bytes} {c : Client} {env : SendEnv}
include hI

theorem Kept.sendBody (henv : env.Ordinary W) {script : List SendOutcome}
    (hord : ∀ o ∈ script, o.Ordinary) (h : I log acc c) :
    (sendBody env script c).Spec W I log acc := by
  unfold EventServer.sendBody
  by_cases hstate : c.state = .sendingBody
  swap
  · rw [if_neg hstate]
    simpa only [Sent.Spec, List.append_nil] using h
  rw [if_pos hstate]
  have hsent := hI.send h hord
  obtain ⟨⟨k, hclient⟩, -, -, hdone⟩ := sendData_spec hord c
  have hstate' : (EventServer.sendData script c).client.state = .sendingBody := by
    rw [hclient]; exact hstate
  generalize EventServer.sendData script c = sent at *
  obtain ⟨ret, c₁, accepted, rest⟩ := sent
  simp only at hsent hdone hstate' ⊢
  match ret with
  | none =>
      simp only [Sent.Spec, List.append_nil]
      exact ⟨c₁, hsent⟩
  | some (_ + 1) => simpa only [Sent.Spec, List.append_nil] using hsent
  | some 0 =>
      have hunsent : c₁.sendBuf.unsent = [] := hdone rfl
      simp only
      by_cases hnext : c₁.curRequest + 1 < c₁.numRequests
      · rw [if_pos hnext]
        split
        next hnone =>
          simp only [Sent.Spec, List.append_nil]
          exact ⟨c₁, env.header, hsent, henv.header, hunsent, .inr ⟨hstate', hnext, hnone⟩⟩
        next c' hbuild => exact hI.header hsent hstate' hunsent hnext henv.header hbuild
      · -- the last request: everything is sent
        rw [if_neg hnext]
        simp only [Sent.Spec, List.append_nil]
        exact ⟨c₁, hsent, hstate', hunsent, Nat.le_of_not_lt hnext, rfl⟩

theorem Kept.sendResponses (henv : env.Ordinary W) (h : I log acc c) :
    (sendResponses env c).Spec W I log acc := by
  unfold EventServer.sendResponses
  by_cases hstate : c.state = .sendingHeaders
  swap
  · rw [if_neg hstate]
    exact hI.sendBody henv henv.script h
  rw [if_pos hstate]
  have hsent := hI.send h henv.script
  obtain ⟨⟨k, hclient⟩, -, hscript, hdone⟩ := sendData_spec henv.script c
  have hstate' : (EventServer.sendData env.script c).client.state = .sendingHeaders := by
    rw [hclient]; exact hstate
  generalize EventServer.sendData env.script c = sent at *
  obtain ⟨ret, c₁, accepted, rest⟩ := sent
  simp only at hsent hdone hstate' hscript ⊢
  match ret with
  | none =>
      simp only [Sent.Spec, List.append_nil]
      exact ⟨c₁, hsent⟩
  | some (_ + 1) =>
      have := hI.sendBody henv hscript hsent
      simpa only [Sent.Spec, List.append_assoc] using this
  | some 0 =>
      simp only
      split
      next hnone =>
        simp only [Sent.Spec, List.append_nil]
        exact ⟨c₁, env.body, hsent, henv.body, hdone rfl, .inl ⟨hstate', hnone⟩⟩
      next c' hbuild =>
        have hbody := hI.body hsent hstate' (hdone rfl) henv.body hbuild
        have := hI.sendBody henv hscript hbody
        simpa only [Sent.Spec, List.append_assoc, List.singleton_append] using this

/-- **The whole answer.** -/
theorem Kept.answer {envs : List SendEnv} (henvs : ∀ env ∈ envs, env.Ordinary W)
    (h : I log acc c) : (answer envs c).Spec W I log acc := by
  induction envs generalizing log acc c with
  | nil => simpa only [EventServer.answer, Sent.Spec, List.append_nil] using h
  | cons env envs ih =>
      have hcall := hI.sendResponses (henvs env List.mem_cons_self) h
      have hrest := fun e he => henvs e (List.mem_cons_of_mem env he)
      rw [EventServer.answer]
      generalize EventServer.sendResponses env c = call at *
      obtain ⟨accepted, built, ending⟩ := call
      match ending with
      | .returned 0 c' => exact hcall
      | .returned (_ + 1) c' =>
          have := ih hrest hcall
          simpa only [Sent.Spec, List.append_assoc] using this
      | .sending => exact hcall
      | .undefined => exact hcall

end Kept

/-! ## An answer can be finished

A socket that takes all it is offered brings the client back to receiving. -/

/-- All that is in the buffer is sent. -/
def Client.drained (c : Client) : Client := c.advance (c.sendBuf.length - c.sendBuf.position)

theorem sendData_all {k : Nat} {c : Client} (hk : c.sendBuf.length ≤ k)
    (script : List SendOutcome) : ∃ accepted rest,
      sendData (.accepted k :: script) c = ⟨some 0, c.drained, accepted, rest⟩ ∧
      (rest = script ∨ rest = .accepted k :: script) := by
  by_cases hleft : c.sendBuf.length - c.sendBuf.position = 0
  · rw [sendData_done hleft, Client.drained, hleft]
    exact ⟨[], _, rfl, .inr rfl⟩
  · have hmin : min (k + 1) (c.sendBuf.length - c.sendBuf.position)
        = c.sendBuf.length - c.sendBuf.position := by omega
    have hdone : (c.advance (c.sendBuf.length - c.sendBuf.position)).sendBuf.length
        - (c.advance (c.sendBuf.length - c.sendBuf.position)).sendBuf.position = 0 := by
      simp only [Client.advance]
      omega
    simp only [sendData_accepted hleft, hmin, sendData_done hdone]
    exact ⟨_, script, rfl, .inl rfl⟩

theorem Kept.drained {W : World → Prop} {I : List Built → Bytes → Client → Prop} (hI : Kept W I)
    {log : List Built} {acc : Bytes} {c : Client} (h : I log acc c) :
    ∃ acc', I log acc' c.drained ∧ c.drained.sendBuf.unsent = [] := by
  obtain ⟨accepted, rest, hsend, -⟩ := sendData_all (Nat.le_refl c.sendBuf.length) []
  have hord : ∀ o ∈ [SendOutcome.accepted c.sendBuf.length], o.Ordinary := by
    simp [SendOutcome.Ordinary]
  have hsent := hI.send h hord
  have hdone := (sendData_spec hord c).done
  rw [hsend] at hsent hdone
  exact ⟨_, hsent, hdone rfl⟩

/-- No builder is undefined under `I`. -/
def Builds (W : World → Prop) (I : List Built → Bytes → Client → Prop) : Prop :=
  ∀ ⦃log acc c w⦄, I log acc c → W w → ¬ c.Stuck w

section Builds
variable {W : World → Prop} {I : List Built → Bytes → Client → Prop} (hB : Builds W I)
  (hI : Kept W I) {log : List Built} {acc : Bytes} {c : Client}
include hB hI

theorem Builds.answer_defined {envs : List SendEnv} (henvs : ∀ env ∈ envs, env.Ordinary W)
    (h : I log acc c) : (answer envs c).ending ≠ .undefined := by
  intro hend
  have hspec := hI.answer henvs h
  rw [Sent.Spec, hend] at hspec
  obtain ⟨c', w, h', hw, hstuck⟩ := hspec
  exact hB h' hw hstuck

/-- A call in which the socket takes all there is: the response is sent, and the next
one begun. -/
theorem Builds.exists_sendResponses {w : World} (hw : W w) (hstate : c.state = .sendingHeaders)
    (h : I log acc c) : ∃ env, env.Ordinary W ∧
      ((∃ c', (sendResponses env c).ending = .returned 0 c') ∨
        ∃ c', (sendResponses env c).ending = .returned 1 c' ∧ c'.state = .sendingHeaders ∧
          c'.numRequests = c.numRequests ∧ c'.curRequest = c.curRequest + 1 ∧
          c'.curRequest < c'.numRequests) := by
  obtain ⟨acc₁, h₁, hunsent₁⟩ := hI.drained h
  obtain ⟨c₂, hbody⟩ := Option.ne_none_iff_exists'.mp fun hnone =>
    hB h₁ hw ⟨hunsent₁, .inl ⟨hstate, hnone⟩⟩
  obtain ⟨acc₂, h₂, hunsent₂⟩ := hI.drained (hI.body h₁ hstate hunsent₁ hw hbody)
  have hframe := (buildBody_frame hbody).1
  have hnum : c₂.numRequests = c.numRequests := hframe.numRequests
  have hcur : c₂.curRequest = c.curRequest := hframe.curRequest
  obtain ⟨k, hk⟩ : ∃ k, k = max c.sendBuf.length c₂.sendBuf.length := ⟨_, rfl⟩
  have hord : ∀ o ∈ [SendOutcome.accepted k, .accepted k], o.Ordinary := by
    simp [SendOutcome.Ordinary]
  refine ⟨⟨[.accepted k, .accepted k], w, w⟩, ⟨hord, hw, hw⟩, ?_⟩
  obtain ⟨accepted₁, rest₁, hsend₁, hrest⟩ :=
    sendData_all (by omega : c.sendBuf.length ≤ k) [.accepted k]
  obtain ⟨script, rfl⟩ : ∃ script, rest₁ = .accepted k :: script := by
    rcases hrest with h | h <;> exact ⟨_, h⟩
  obtain ⟨accepted₂, rest₂, hsend₂, -⟩ :=
    @sendData_all k { c₂ with state := .sendingBody } (by simp only; omega) script
  have hstate₃ : ({ c₂ with state := .sendingBody } : Client).drained.state = .sendingBody := rfl
  have hnum₃ : ({ c₂ with state := .sendingBody } : Client).drained.numRequests = c.numRequests :=
    hnum
  have hcur₃ : ({ c₂ with state := .sendingBody } : Client).drained.curRequest = c.curRequest :=
    hcur
  generalize ({ c₂ with state := .sendingBody } : Client).drained = c₃ at *
  simp only [EventServer.sendResponses, if_pos hstate, hsend₁, hbody, EventServer.sendBody,
    if_true, hsend₂]
  by_cases hnext : c₃.curRequest + 1 < c₃.numRequests
  · obtain ⟨c₄, hheader⟩ := Option.ne_none_iff_exists'.mp fun hnone =>
      hB h₂ hw ⟨hunsent₂, .inr ⟨hstate₃, hnext, hnone⟩⟩
    have hframe₄ := buildHeader_frame hheader
    refine .inr ⟨c₄, ?_, hframe₄.state, hframe₄.numRequests.trans hnum₃,
      hframe₄.curRequest.trans (congrArg (· + 1) hcur₃), ?_⟩
    · rw [if_pos hnext]
      simp only [hheader]
    · rw [hframe₄.curRequest, hframe₄.numRequests]
      exact hnext
  · exact .inl ⟨_, by rw [if_neg hnext]⟩

/-- **An answer can be finished.** -/
theorem Builds.exists_answer {w : World} (hw : W w) (hstate : c.state = .sendingHeaders)
    (h : I log acc c) : ∃ envs, (∀ env ∈ envs, env.Ordinary W) ∧
      ∃ back, (answer envs c).ending = .returned 0 back := by
  obtain ⟨k, hk⟩ : ∃ k, c.numRequests - c.curRequest ≤ k := ⟨_, Nat.le_refl _⟩
  induction k generalizing log acc c with
  | zero =>
      obtain ⟨env, henv, hcall⟩ := hB.exists_sendResponses hI hw hstate h
      rcases hcall with ⟨back, hend⟩ | ⟨c', -, -, hnum, hcur, hlt⟩
      · exact ⟨[env], by simpa using henv, back, by simp only [EventServer.answer, hend]⟩
      · omega
  | succ k ih =>
      obtain ⟨env, henv, hcall⟩ := hB.exists_sendResponses hI hw hstate h
      rcases hcall with ⟨back, hend⟩ | ⟨c', hend, hstate', hnum, hcur, hlt⟩
      · exact ⟨[env], by simpa using henv, back, by simp only [EventServer.answer, hend]⟩
      · have hspec := hI.sendResponses henv h
        rw [Sent.Spec, hend] at hspec
        obtain ⟨envs, henvs, back, hback⟩ := ih hstate' hspec (by omega)
        exact ⟨env :: envs, by simpa using ⟨henv, henvs⟩, back, by
          simp only [EventServer.answer, hend, hback]⟩

end Builds

/-! ## The parts in order

The invariant of answering: the parts built, those sent in full, and how much of the
last one is accepted. -/

/-- **The invariant.**  Answering a batch of `n` parsed requests, the client has
built the parts in `log` and the socket has accepted `accepted`. -/
structure Progress (n : Nat) (log : List Built) (accepted : Bytes) (c : Client) : Prop where
  bytes : logBytes log = accepted ++ c.sendBuf.unsent
  numRequests : c.numRequests = n
  curRequest : c.curRequest < max n 1
  labels : c.state = .sendingHeaders ∧
      log.map Built.label = parts c.curRequest ++ [(.header, c.curRequest)] ∨
    c.state = .sendingBody ∧ log.map Built.label = parts (c.curRequest + 1)

section Progress
variable {n : Nat} {log : List Built} {accepted : Bytes} {c : Client}

theorem Progress.labels_prefix (h : Progress n log accepted c) :
    log.map Built.label <+: parts (max n 1) := by
  rcases h.labels with ⟨-, hl⟩ | ⟨-, hl⟩
  · rw [hl]
    exact parts_header_prefix h.curRequest
  · rw [hl]
    exact parts_prefix (Nat.succ_le_of_lt h.curRequest)

theorem Progress.accepted_prefix (h : Progress n log accepted c) :
    accepted <+: logBytes log :=
  h.bytes ▸ List.prefix_append _ _

/-- When everything is sent. -/
theorem Progress.finished (h : Progress n log accepted c) (hstate : c.state = .sendingBody)
    (hunsent : c.sendBuf.unsent = []) (hlast : c.numRequests ≤ c.curRequest + 1) :
    log.map Built.label = parts (max n 1) ∧ accepted = logBytes log := by
  have hcur : c.curRequest + 1 = max n 1 := by
    have := h.curRequest
    have := h.numRequests
    omega
  have hlabels := h.labels.resolve_left (by rw [hstate]; simp)
  exact ⟨hcur ▸ hlabels.2, by rw [h.bytes, hunsent, List.append_nil]⟩

theorem Progress.kept (n : Nat) : Kept (fun _ => True) (Progress n) where
  send {log acc c script} h hord := by
    obtain ⟨⟨k, hclient⟩, hunsent, -, -⟩ := sendData_spec hord c
    refine ⟨?_, ?_, ?_, ?_⟩
    · rw [h.bytes, hunsent, List.append_assoc]
    · rw [hclient]; exact h.numRequests
    · rw [hclient]; exact h.curRequest
    · rw [hclient]; exact h.labels
  body {log acc c w c'} h hstate hunsent _ hbuild := by
    have hframe := (buildBody_frame hbuild).1
    have hcur : c'.curRequest = c.curRequest := hframe.curRequest
    have hlabels := h.labels.resolve_right (by rw [hstate]; simp)
    refine ⟨?_, hframe.numRequests.trans h.numRequests, ?_, .inr ⟨rfl, ?_⟩⟩
    · rw [logBytes_concat, h.bytes, hunsent, List.append_nil]
      exact congrArg _ (Buffer.unsent_of_position_zero hframe.position).symm
    · exact hcur ▸ h.curRequest
    · rw [List.map_append, hlabels.2, hcur, List.append_assoc]
      rfl
  header {log acc c w c'} h hstate hunsent hnext _ hbuild := by
    have hframe := buildHeader_frame hbuild
    have hcur : c'.curRequest = c.curRequest + 1 := hframe.curRequest
    have hlabels := h.labels.resolve_left (by rw [hstate]; simp)
    refine ⟨?_, hframe.numRequests.trans h.numRequests, ?_, .inl ⟨hframe.state, ?_⟩⟩
    · rw [logBytes_concat, h.bytes, hunsent, List.append_nil,
        Buffer.unsent_of_position_zero hframe.position]
    · rw [hcur]
      exact Nat.lt_of_lt_of_le (h.numRequests ▸ hnext) (Nat.le_max_left n 1)
    · rw [List.map_append, hlabels.2, hcur]
      rfl

end Progress

/-! ## The result -/

/-- The parts the builders make for the batch taken by `receive_requests`: the first
header, and those built by the calls of `send_responses`. -/
def builtParts (c : Client) (envs : List SendEnv) : List Built :=
  ⟨.header, 0, c.sendBuf.contents⟩ :: (answer envs c).built

theorem Progress.start {env : RecvEnv} {c₀ c : Client} (hc : Reach c₀)
    (hstate : c₀.state = .receivingHeaders) (h : receiveRequests env c₀ = some (0, c)) :
    Progress c.numRequests [⟨.header, 0, c.sendBuf.contents⟩] [] c := by
  obtain ⟨p, hp⟩ := hc.receiving hstate
  obtain ⟨r, c₁, hrecv, hcases⟩ := receiveRequests_cases h
  obtain ⟨q, hq⟩ := recvData_receiving hp hrecv
  rcases hcases with ⟨-, h01, -⟩ | ⟨-, -, ⟨-, h01, -⟩ | ⟨-, -, htake⟩⟩
  · cases h01
  · cases h01
  obtain ⟨status, c₂, c₃, hparse, hbuild, rfl⟩ := takeRequests_spec htake
  obtain ⟨hcur, -, -⟩ := requestToStruct_spec hparse
  have hframe := buildHeader_frame hbuild
  have hcur0 : c₃.curRequest = 0 := hframe.curRequest.trans (hcur.trans hq.curRequest)
  refine ⟨?_, rfl, ?_, .inl ⟨rfl, ?_⟩⟩
  · rw [Buffer.unsent_of_position_zero hframe.position]
    exact List.append_nil _
  · rw [hcur0]
    exact Nat.lt_of_lt_of_le Nat.one_pos (Nat.le_max_right _ _)
  · rw [hcur0]
    rfl

/-- **No byte lost, repeated or reordered.**  A batch is taken and answered, with any
script of sends: the parts are built in order, what the socket has accepted is a
beginning of them, and all of them when the client is back to receiving. -/
theorem send_in_order {env : RecvEnv} {c₀ c : Client} (hc : Reach c₀)
    (hstate : c₀.state = .receivingHeaders) (h : receiveRequests env c₀ = some (0, c))
    {envs : List SendEnv} (hord : ∀ env ∈ envs, ∀ o ∈ env.script, o.Ordinary) :
    (builtParts c envs).map Built.label <+: parts (max c.numRequests 1) ∧
      (answer envs c).accepted <+: logBytes (builtParts c envs) ∧
      ∀ ret c', (answer envs c).ending = .returned ret c' → c'.state = .receivingHeaders →
        (builtParts c envs).map Built.label = parts (max c.numRequests 1) ∧
          (answer envs c).accepted = logBytes (builtParts c envs) := by
  have hspec := (Progress.kept _).answer (fun env henv => ⟨hord env henv, trivial, trivial⟩)
    (Progress.start hc hstate h)
  rw [Sent.Spec, List.nil_append] at hspec
  rw [builtParts]
  match hend : (answer envs c).ending with
  | .returned 0 c' =>
      rw [hend] at hspec
      obtain ⟨c₁, hlast, hsending, hunsent, hnum, -⟩ := hspec
      obtain ⟨hlabels, hbytes⟩ := hlast.finished hsending hunsent hnum
      refine ⟨hlabels ▸ List.prefix_refl _, hbytes ▸ List.prefix_refl _, ?_⟩
      exact fun _ _ _ _ => ⟨hlabels, hbytes⟩
  | .returned (_ + 1) c' =>
      rw [hend] at hspec
      refine ⟨hspec.labels_prefix, hspec.accepted_prefix, ?_⟩
      rintro ret c'' ⟨⟩ hrecv
      rcases hspec.labels with ⟨hs, -⟩ | ⟨hs, -⟩ <;> rw [hs] at hrecv <;> cases hrecv
  | .sending =>
      rw [hend] at hspec
      obtain ⟨c₁, hlast⟩ := hspec
      exact ⟨hlast.labels_prefix, hlast.accepted_prefix, nofun⟩
  | .undefined =>
      rw [hend] at hspec
      obtain ⟨c₁, -, hlast, -⟩ := hspec
      exact ⟨hlast.labels_prefix, hlast.accepted_prefix, nofun⟩

/-! ## A small page -/

/-- A server root with one page of three bytes, at the start of the epoch. -/
def pageWorld : World where
  openFile path := if path = ascii "www/index.html" then
      .ok { size := 3, ctime := 0, reads := [ascii "hi\n"], reads_le := by decide }
    else .error .enoent
  now := 0
  date _ := ascii "Thu, 01 Jan 1970 00:00:00 UTC"
  date_length _ := by decide
  date_printable _ := by decide

def pageRecv (text : Bytes) : RecvEnv where
  script := [.data text 0]
  heap _ := zeroBlocks
  world := pageWorld

/-- The first send takes four bytes and the second is put off; in the next call an
interrupted send is repeated, and the others take all there is. -/
def pageSends : List SendEnv :=
  [⟨[.accepted 3, .wouldBlock], pageWorld, pageWorld⟩,
    ⟨[.interrupted true, .accepted 4000, .accepted 4000], pageWorld, pageWorld⟩]

/-- The page is requested and sent in full. -/
theorem pageSends_in_order :
    ∃ c c', receiveRequests (pageRecv (ascii "GET / HTTP/1.1" ++ crlfcrlf)) (newClient 0)
        = some (0, c) ∧
      (answer pageSends c).ending = .returned 0 c' ∧ c'.state = .receivingHeaders ∧
      (answer pageSends c).accepted = logBytes (builtParts c pageSends) := by
  have hrun : ((receiveRequests (pageRecv (ascii "GET / HTTP/1.1" ++ crlfcrlf)) (newClient 0)).any
      fun r => r.1 == 0 && (answer pageSends r.2).ending.returnedWith fun ret c' =>
        ret == 0 && c'.state == .receivingHeaders) = true := by
    decide +kernel
  obtain ⟨⟨ret, c⟩, hrecv, hrun⟩ := (Option.any_eq_true _ _).mp hrun
  rw [Bool.and_eq_true, beq_iff_eq, Ending.returnedWith_iff] at hrun
  obtain ⟨rfl, ret, c', hend, hrun⟩ := hrun
  rw [Bool.and_eq_true, beq_iff_eq, beq_iff_eq] at hrun
  obtain ⟨rfl, hstate⟩ := hrun
  have hord : ∀ env ∈ pageSends, ∀ o ∈ env.script, o.Ordinary := by
    simp [pageSends, SendOutcome.Ordinary]
  have hall := (send_in_order (.new 0) rfl hrecv hord).2.2 0 c' hend hstate
  exact ⟨c, c', hrecv, hend, hstate, hall.2⟩

end InternetLabs.EventServer
