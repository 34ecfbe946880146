/-
# `InternetLabs.HttpServer.Classify` — the two parsers compared

A request line with three words should be told by its method and its version alone:
`classify`.  The threaded server does so.  In the forking server the last two tests of the
method are `strcmp` without `== 0`, and no method is both POST and HEAD, so every method
passes (`accepts_all`): the branch that frees the blocks and answers 501 is dead.

So the two agree exactly on the methods that both know
(`requestToStruct_alike_iff`).  There they agree in everything: the status, and of a
request that is accepted what each field reads as, whatever the two heaps were.
-/
import InternetLabs.HttpServer.Fields

namespace InternetLabs.HttpServer

open InternetLabs.EventServer (Status methods http11 filetypeOf isCrlf hostOf storedLines headerOf)

/-- What method and version come to. -/
def classify (method version : Bytes) : Status :=
  if method ∉ methods then .notImplemented
  else if version ≠ http11 then .internalError
  else .ok

/-- Two parses come to what method and version say, and to the same fields if that is
`STATUS_OK`. -/
def Alike (method version : Bytes) (r₁ r₂ : Except Fault Parsed) : Prop :=
  ∃ p₁ p₂, r₁ = .ok p₁ ∧ r₂ = .ok p₂ ∧
    p₁.status = classify method version ∧ p₂.status = classify method version ∧
    (classify method version = .ok → ∃ fields, p₁.Shows fields ∧ p₂.Shows fields)

section Words
variable {request : Bytes} (h : Fits request) {line : Bytes} {ls : List Bytes}
  (hlines : linesOf request = line :: ls) {method uri version : Bytes} {more : List Bytes}
  (hwords : words line = method :: uri :: version :: more)
include h hlines hwords

/-- **A parser that knows the methods** tells a request by its method and version. -/
theorem requestToStruct_classify (accepts : Bytes → Bool) (freesVersion : Bool) (blocks : Blocks)
    (heap : Heap Contents) (hmethod : accepts method = true ↔ method ∈ methods) :
    ∃ p, requestToStruct accepts freesVersion blocks request .zero heap = .ok p ∧
      p.status = classify method version ∧
      (classify method version = .ok → p.Shows {
        method := some method
        uri := some uri
        filetype := some (filetypeOf uri)
        version := some version
        host := hostOf none ls
        headers := some ((storedLines ls).map headerOf) }) := by
  have hseen : EventServer.seen blocks.method (words line)[0]? = method := by rw [hwords]; rfl
  have hseen' : EventServer.seen blocks.version (words line)[2]? = version := by rw [hwords]; rfl
  by_cases hknown : method ∈ methods
  swap
  · have hrefused : accepts method = false := by
      rw [← Bool.not_eq_true]
      exact fun htrue => hknown (hmethod.mp htrue)
    obtain ⟨heap', hrun⟩ := requestToStruct_method accepts freesVersion blocks h heap hlines
      (by rw [hseen]; exact hrefused)
    refine ⟨_, hrun, (if_pos hknown).symm, fun hok => ?_⟩
    rw [classify, if_pos hknown] at hok
    cases hok
  have hpass : accepts (EventServer.seen blocks.method (words line)[0]?) = true := by
    rw [hseen]
    exact hmethod.mpr hknown
  by_cases hversion : version = http11
  swap
  · obtain ⟨heap', hrun, -⟩ := requestToStruct_version accepts freesVersion blocks h heap hlines
      hpass (by rw [hseen']; exact hversion)
    have hclass : classify method version = .internalError := by
      rw [classify, if_neg (not_not.mpr hknown), if_pos hversion]
    refine ⟨_, hrun, hclass.symm, fun hok => ?_⟩
    rw [hclass] at hok
    cases hok
  · obtain ⟨p, hrun, hstatus, hstored⟩ := requestToStruct_stored accepts freesVersion blocks h heap
      hlines hpass (by rw [hseen']; exact hversion) (by rw [hwords]; rintro ⟨hnone, -⟩; cases hnone)
    have hclass : classify method version = .ok := by
      rw [classify, if_neg (not_not.mpr hknown), if_neg (not_not.mpr hversion)]
    refine ⟨p, hrun, hstatus.trans hclass.symm, fun _ => ?_⟩
    have hshows := hstored.shows
    rw [fieldsOf, hwords] at hshows
    exact hshows

end Words

theorem threaded_accepts_iff (method : Bytes) :
    ThreadedServer.accepts method = true ↔ method ∈ methods := by
  simp only [ThreadedServer.accepts, Bool.or_eq_true, beq_iff_eq, methods, List.mem_cons,
    List.not_mem_nil, or_false, or_assoc]

section Compare
variable {request : Bytes} (h : Fits request) {line : Bytes} {ls : List Bytes}
  (hlines : linesOf request = line :: ls) {method uri version : Bytes} {more : List Bytes}
  (hwords : words line = method :: uri :: version :: more)
  (blocks₁ blocks₂ : Blocks) (heap₁ heap₂ : Heap Contents)
include h hlines hwords

/-- The forking server never answers 501: it goes on to the version. -/
theorem forking_status : ∃ p, ForkingServer.requestToStruct blocks₁ request .zero heap₁ = .ok p ∧
    p.status ≠ .notImplemented := by
  have hpass := ForkingServer.accepts_all (EventServer.seen blocks₁.method (words line)[0]?)
  by_cases hversion : EventServer.seen blocks₁.version (words line)[2]? = http11
  · obtain ⟨p, hrun, hok, -⟩ := requestToStruct_stored ForkingServer.accepts false blocks₁ h heap₁
      hlines hpass hversion (by rw [hwords]; rintro ⟨hnone, -⟩; cases hnone)
    exact ⟨p, hrun, fun heq => by rw [hok] at heq; cases heq⟩
  · obtain ⟨heap', hrun, -⟩ := requestToStruct_version ForkingServer.accepts false blocks₁ h heap₁
      hlines hpass hversion
    exact ⟨_, hrun, fun heq => by cases heq⟩

theorem not_alike (hunknown : method ∉ methods) :
    ¬ Alike method version (ForkingServer.requestToStruct blocks₁ request .zero heap₁)
      (ThreadedServer.requestToStruct blocks₂ request .zero heap₂) := by
  rintro ⟨p₁, p₂, hrun₁, -, hstatus₁, -⟩
  obtain ⟨p, hrun, hne⟩ := forking_status h hlines hwords blocks₁ heap₁
  rw [hrun] at hrun₁
  cases hrun₁
  rw [classify, if_pos hunknown] at hstatus₁
  exact hne hstatus₁

/-- **The two servers classify a request alike exactly if they know its method.** -/
theorem requestToStruct_alike_iff :
    Alike method version (ForkingServer.requestToStruct blocks₁ request .zero heap₁)
        (ThreadedServer.requestToStruct blocks₂ request .zero heap₂) ↔
      method ∈ methods := by
  refine ⟨fun halike => ?_, fun hknown => ?_⟩
  · by_contra hunknown
    exact not_alike h hlines hwords blocks₁ blocks₂ heap₁ heap₂ hunknown halike
  · obtain ⟨p₁, hrun₁, hstatus₁, hshows₁⟩ := requestToStruct_classify h hlines hwords
      ForkingServer.accepts false blocks₁ heap₁ ⟨fun _ => hknown,
        fun _ => ForkingServer.accepts_all method⟩
    obtain ⟨p₂, hrun₂, hstatus₂, hshows₂⟩ := requestToStruct_classify h hlines hwords
      ThreadedServer.accepts true blocks₂ heap₂ (threaded_accepts_iff method)
    exact ⟨p₁, p₂, hrun₁, hrun₂, hstatus₁, hstatus₂, fun hok => ⟨_, hshows₁ hok, hshows₂ hok⟩⟩

end Compare

/-- `GET / HTTP/1.1`. -/
theorem get_alike : Alike (ascii "GET") http11
    (ForkingServer.requestToStruct zeroBlocks (requestWith (ascii "GET / HTTP/1.1")) .zero .empty)
    (ThreadedServer.requestToStruct zeroBlocks (requestWith (ascii "GET / HTTP/1.1")) .zero
      .empty) :=
  (requestToStruct_alike_iff (requestWith_spec (.inl rfl)).1 (requestWith_spec (.inl rfl)).2
    (show words (ascii "GET / HTTP/1.1") = [ascii "GET", ascii "/", http11] by decide)
    zeroBlocks zeroBlocks .empty .empty).mpr (by decide)

/-- `PUT / HTTP/1.1`: the forking server accepts it. -/
theorem put_not_alike : ¬ ∀ (request line : Bytes) (ls : List Bytes) (method uri version : Bytes)
    (more : List Bytes) (blocks₁ blocks₂ : Blocks) (heap₁ heap₂ : Heap Contents), Fits request →
    linesOf request = line :: ls → words line = method :: uri :: version :: more →
    Alike method version (ForkingServer.requestToStruct blocks₁ request .zero heap₁)
      (ThreadedServer.requestToStruct blocks₂ request .zero heap₂) := by
  intro hall
  obtain ⟨hfits, hlines⟩ := @requestWith_spec (ascii "PUT / HTTP/1.1") (.inr (.inl rfl))
  have hwords : words (ascii "PUT / HTTP/1.1") = [ascii "PUT", ascii "/", http11] := by decide
  exact not_alike hfits hlines hwords zeroBlocks zeroBlocks .empty .empty (by decide)
    (hall _ _ _ _ _ _ _ zeroBlocks zeroBlocks .empty .empty hfits hlines hwords)

end InternetLabs.HttpServer
