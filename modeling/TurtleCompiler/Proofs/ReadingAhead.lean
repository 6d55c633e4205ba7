import TurtleCompiler.Proofs.Operations

/-!
Reading ahead. Tokens that a scanner has looked at wait until they are taken, so its answers are
those of the list of tokens.
-/

namespace TurtleCompiler

variable {n : Nat}

theorem Feed.scan_eq_scan {m : Nat} {input : Input} (hn : input.rest.length < n)
    (hm : input.rest.length < m) : scan n input = scan m input := by
  induction n generalizing m input with
  | zero => exact absurd hn (Nat.not_lt_zero _)
  | succ n ih =>
    obtain _ | m := m
    · exact absurd hm (Nat.not_lt_zero _)
    · simp only [scan]
      cases hresult : input.next.result with
      | error e => rfl
      | ok token =>
        cases token with
        | none => rfl
        | some t =>
          have hlength := (Input.next_token hresult).2
          rw [ih (m := m) (by omega) (by omega)]

namespace Input

variable {input : Input}

def feed (input : Input) : Feed := .scan (input.rest.length + 1) input

def tokens (input : Input) : List Token := input.feed.tokens.map (·.1)

theorem feed_of_next_some {t : Token} (h : input.next.result = .ok (some t)) :
    input.tokens = t :: input.next.after.tokens ∧
    input.feed.ending = input.next.after.feed.ending := by
  have hlength := (next_token h).2
  have hfeed : Feed.scan input.rest.length input.next.after = input.next.after.feed :=
    Feed.scan_eq_scan hlength (Nat.lt_succ_self _)
  simp only [tokens, feed, Feed.scan, h, List.map_cons, hfeed, and_self]

theorem feed_of_next_none (h : input.next.result = .ok none) :
    input.tokens = [] ∧ input.next.after.tokens = [] ∧
    input.feed.ending = input.next.after.feed.ending := by
  have hafter : input.next.after = ⟨[], input.next.after.line⟩ := by rw [(next_none h).2]
  have hempty : input.next.after.feed = ⟨[], [], .ok input.next.after.line⟩ := by
    rw [hafter]
    rfl
  simp only [tokens, hempty, List.map_nil, true_and]
  simp only [feed, Feed.scan, h, List.map_nil, and_self]

theorem ending_of_next_error {e : Error} (h : input.next.result = .error e) :
    input.feed.ending = .error e := by
  simp only [feed, Feed.scan, h]

end Input

namespace Scanner

variable {s s' : Scanner} {e : Error}

def coming (s : Scanner) : List Token := s.ahead ++ s.input.tokens

def ending (s : Scanner) : Except Error Nat := s.input.feed.ending

variable {t : Option Token}

theorem scan_eq_ok (h : scan s = .ok t s') :
    s'.ahead = s.ahead ∧ s.input.tokens = t.toList ++ s'.input.tokens ∧ s'.ending = s.ending ∧
      (t = none → s'.input.tokens = []) := by
  unfold scan at h
  cases hresult : s.input.next.result with
  | error e => simp [hresult] at h
  | ok token =>
    simp only [hresult, EStateM.Result.ok.injEq] at h
    obtain ⟨rfl, rfl⟩ := h
    cases token with
    | none =>
      obtain ⟨hnone, hafter, hending⟩ := Input.feed_of_next_none hresult
      exact ⟨rfl, hnone.trans hafter.symm, hending.symm, fun _ => hafter⟩
    | some t =>
      obtain ⟨htokens, hending⟩ := Input.feed_of_next_some hresult
      exact ⟨rfl, htokens, hending.symm, by simp⟩

theorem scan_eq_error (h : scan s = .error e s') : s.ending = .error e := by
  unfold scan at h
  cases hresult : s.input.next.result with
  | ok token => simp [hresult] at h
  | error e' =>
    simp only [hresult, EStateM.Result.error.injEq] at h
    obtain ⟨rfl, -⟩ := h
    exact Input.ending_of_next_error hresult

theorem fill_eq_ok {u : Unit} (h : fill n s = .ok u s') :
    s'.coming = s.coming ∧ s'.ending = s.ending ∧
    (s'.ahead.length = s.ahead.length + n ∨ s'.input.tokens = []) := by
  induction n generalizing s with
  | zero =>
    obtain ⟨-, rfl⟩ := pure_eq_ok.1 h
    exact ⟨rfl, rfl, .inl rfl⟩
  | succ n ih =>
    obtain ⟨t, s₁, hscan, h⟩ := bind_eq_ok.1 h
    obtain ⟨hahead, htokens, hending, hnone⟩ := scan_eq_ok hscan
    cases t with
    | none =>
      obtain ⟨-, rfl⟩ := pure_eq_ok.1 h
      exact ⟨by rw [coming, coming, hahead, htokens]; rfl, hending, .inr (hnone rfl)⟩
    | some t =>
      obtain ⟨_, s₂, hmodify, h⟩ := bind_eq_ok.1 h
      obtain rfl := modify_eq_ok.1 hmodify
      obtain ⟨hcoming, hending', hlength⟩ := ih h
      refine ⟨?_, hending'.trans hending, hlength.imp_left fun hlength => ?_⟩
      · rw [hcoming, coming, coming, htokens, ← hahead, List.append_assoc]
        rfl
      · rw [hlength, List.length_append, hahead, List.length_singleton]
        omega

theorem fill_eq_error (h : fill n s = .error e s') : s.ending = .error e := by
  induction n generalizing s with
  | zero => cases h
  | succ n ih =>
    rcases bind_eq_error.1 h with hscan | ⟨t, s₁, hscan, h⟩
    · exact scan_eq_error hscan
    · obtain ⟨-, -, hending, -⟩ := scan_eq_ok hscan
      cases t with
      | none => exact absurd h pure_ne_error
      | some t =>
        rcases bind_eq_error.1 h with h | ⟨_, s₂, hmodify, h⟩
        · exact absurd h modify_ne_error
        · obtain rfl := modify_eq_ok.1 hmodify
          have hrest := ih h
          exact hending.symm.trans hrest

theorem peek_eq_ok (h : peek n s = .ok t s') :
    t = s.coming[n]? ∧ s'.coming = s.coming ∧ s'.ending = s.ending := by
  simp only [peek, bind_eq_ok, get_eq_ok, pure_eq_ok] at h
  obtain ⟨_, _, ⟨rfl, rfl⟩, _, s₁, hfill, _, _, ⟨rfl, rfl⟩, rfl, rfl⟩ := h
  obtain ⟨hcoming, hending, hlength⟩ := fill_eq_ok hfill
  refine ⟨?_, hcoming, hending⟩
  rw [← hcoming, coming]
  rcases hlength with hlength | hnone
  · rw [List.getElem?_append_left (by omega)]
  · rw [hnone, List.append_nil]

theorem peek_eq_error (h : peek n s = .error e s') : s.ending = .error e := by
  simp only [peek, bind_eq_error, get_ne_error, get_eq_ok, pure_ne_error, false_or, and_false,
    exists_false, or_false] at h
  obtain ⟨_, _, ⟨rfl, rfl⟩, hfill⟩ := h
  exact fill_eq_error hfill

theorem advance_eq_ok (h : advance s = .ok t s') :
    t = s.coming.head? ∧ s'.coming = s.coming.tail ∧ s'.ending = s.ending := by
  simp only [advance, get_bind] at h
  cases hahead : s.ahead with
  | nil =>
    rw [hahead] at h
    obtain ⟨hahead', htokens, hending, hnone⟩ := scan_eq_ok h
    rw [coming, coming, hahead', hahead, htokens, List.nil_append, List.nil_append]
    cases t with
    | none => exact ⟨by simp [hnone rfl], by simp [hnone rfl], hending⟩
    | some t => exact ⟨rfl, rfl, hending⟩
  | cons token ahead =>
    simp only [hahead, bind_eq_ok, modify_eq_ok, pure_eq_ok] at h
    obtain ⟨_, _, rfl, rfl, rfl⟩ := h
    exact ⟨by simp [coming, hahead], by simp [coming, hahead], rfl⟩

theorem advance_eq_error (h : advance s = .error e s') : s.ending = .error e := by
  simp only [advance, get_bind] at h
  cases hahead : s.ahead with
  | nil =>
    rw [hahead] at h
    exact scan_eq_error h
  | cons token ahead =>
    rw [hahead] at h
    cases h

inductive Request where
  | peek (n : Nat)
  | advance
  | line
  deriving DecidableEq

inductive Answer where
  | token (t : Option Token)
  | line (n : Nat)
  deriving DecidableEq

namespace Request

def ask : Request → EStateM Error Scanner Answer
  | .peek n => do return .token (← Scanner.peek n)
  | .advance => do return .token (← Scanner.advance)
  | .line => do return .line (← get).line

def IsAnswered (tokens : List Token) (taken : Nat) : Request → Answer → Prop
  | .peek n, answer => answer = .token tokens[taken + n]?
  | .advance, answer => answer = .token tokens[taken]?
  | .line, answer => ∃ n, answer = .line n

variable {request : Request} {answer : Answer} {tokens : List Token} {taken : Nat}

theorem ask_eq_ok (h : request.ask s = .ok answer s') (hs : s.coming = tokens.drop taken) :
    request.IsAnswered tokens taken answer ∧
      s'.coming = tokens.drop (taken + [request].count .advance) ∧ s'.ending = s.ending := by
  cases request with
  | peek n =>
    obtain ⟨t, _, hpeek, h⟩ := bind_eq_ok.1 h
    obtain ⟨rfl, rfl⟩ := pure_eq_ok.1 h
    obtain ⟨rfl, hcoming, hending⟩ := peek_eq_ok hpeek
    exact ⟨by rw [IsAnswered, hs, List.getElem?_drop], hcoming.trans hs, hending⟩
  | advance =>
    obtain ⟨t, _, hadvance, h⟩ := bind_eq_ok.1 h
    obtain ⟨rfl, rfl⟩ := pure_eq_ok.1 h
    obtain ⟨rfl, hcoming, hending⟩ := advance_eq_ok hadvance
    refine ⟨by rw [IsAnswered, hs, List.head?_drop], ?_, hending⟩
    rw [hcoming, hs, List.tail_drop]
    rfl
  | line =>
    simp only [ask, bind_eq_ok, get_eq_ok, pure_eq_ok] at h
    obtain ⟨_, _, ⟨rfl, rfl⟩, rfl, rfl⟩ := h
    exact ⟨⟨_, rfl⟩, hs, rfl⟩

theorem ask_eq_error (h : request.ask s = .error e s') : s.ending = .error e := by
  cases request with
  | peek n =>
    simp only [ask, bind_eq_error, pure_ne_error, and_false, exists_false, or_false] at h
    exact peek_eq_error h
  | advance =>
    simp only [ask, bind_eq_error, pure_ne_error, and_false, exists_false, or_false] at h
    exact advance_eq_error h
  | line => cases h

theorem mapM_ask_eq_ok {requests : List Request} {answers : List Answer}
    (h : requests.mapM ask s = .ok answers s') (hs : s.coming = tokens.drop taken) {i : Nat}
    (hi : requests[i]? = some request) :
    ∃ answer, answers[i]? = some answer ∧
      request.IsAnswered tokens (taken + (requests.take i).count .advance) answer := by
  induction requests generalizing s answers taken i with
  | nil => simp at hi
  | cons first requests ih =>
    obtain ⟨answer, s₁, hask, answers, hrest, rfl⟩ := mapM_cons_eq_ok.1 h
    obtain ⟨hanswer, hcoming, -⟩ := ask_eq_ok hask hs
    cases i with
    | zero =>
      obtain rfl : first = request := by simpa using hi
      exact ⟨answer, rfl, hanswer⟩
    | succ i =>
      obtain ⟨answer', hanswer', hrequest⟩ := ih hrest hcoming hi
      refine ⟨answer', hanswer', ?_⟩
      rwa [List.take_succ_cons, ← List.singleton_append, List.count_append, ← Nat.add_assoc]

theorem exists_mapM_ask {line : Nat} (hs : s.ending = .ok line) (requests : List Request) :
    ∃ answers s', requests.mapM ask s = .ok answers s' := by
  induction requests generalizing s with
  | nil => exact ⟨_, _, rfl⟩
  | cons request requests ih =>
    cases hask : request.ask s with
    | error e s₁ => simp [ask_eq_error hask] at hs
    | ok answer s₁ =>
      have hcoming : s.coming = s.coming.drop 0 := rfl
      have hending := (ask_eq_ok hask hcoming).2.2
      obtain ⟨answers, s', hrest⟩ := ih (hending.trans hs)
      simp only [List.mapM_cons]
      exact ⟨_, _, bind_eq_ok.2 ⟨_, _, hask, bind_eq_ok.2 ⟨_, _, hrest, rfl⟩⟩⟩

end Request

/-- As long as nothing fails, the tokens that a scanner is asked to take are those of the source one
after the other; and a token that is looked at is the one that so many others come before, after
those that have been taken. If the source can be scanned to its end, nothing fails. -/
theorem answers_of_requests (source : String) (requests : List Request) :
    (∀ answers s', requests.mapM Request.ask (ofText source) = .ok answers s' →
      ∀ (i : Nat) (request : Request), requests[i]? = some request →
        ∃ answer, answers[i]? = some answer ∧
        request.IsAnswered ((Feed.ofText source).tokens.map (·.1))
        ((requests.take i).count .advance) answer) ∧
    ∀ tokens, tokenize source = .ok tokens → tokens = (Feed.ofText source).tokens.map (·.1) ∧
      ∃ answers s', requests.mapM Request.ask (ofText source) = .ok answers s' := by
  have hfeed : (ofText source).input.feed = Feed.ofText source := by
    rw [Input.feed, Feed.ofText, ← String.length_toList]
    rfl
  refine ⟨fun _ _ h _ _ hi => ?_, fun tokens htokens => ?_⟩
  · have hcoming : (ofText source).coming = ((Feed.ofText source).tokens.map (·.1)).drop 0 := by
      rw [← hfeed]
      rfl
    simpa only [Nat.zero_add] using Request.mapM_ask_eq_ok h hcoming hi
  · obtain ⟨htokens, line, hline⟩ := tokenize_eq_ok.1 htokens
    have hending : (ofText source).ending = .ok line := by rw [ending, hfeed, hline]
    exact ⟨htokens.symm, Request.exists_mapM_ask hending requests⟩

theorem answers_of_requests_ahead :
    let requests : List Request := [.peek 1, .advance, .line, .peek 0, .advance]
    (∃ answers s', requests.mapM Request.ask (ofText "A\nB @") = .ok answers s' ∧
      answers[2]? = some (.line 2) ∧ ∃ answer, answers[3]? = some answer ∧
        Request.IsAnswered ((Feed.ofText "A\nB @").tokens.map (·.1)) 1 (.peek 0) answer) ∧
      tokenize "A" = .ok [⟨.identifier, "A", 1⟩] ∧
      ∃ answers s', requests.mapM Request.ask (ofText "A") = .ok answers s' := by
  intro requests
  obtain ⟨answers, s', h, hline⟩ := exists_outcome (requests.mapM Request.ask) (ofText "A\nB @")
    (fun answers _ => answers[2]? = some (.line 2)) (by decide +kernel)
  have htokens : tokenize "A" = .ok [⟨.identifier, "A", 1⟩] := by decide +kernel
  exact ⟨⟨answers, s', h, hline,
    (answers_of_requests "A\nB @" requests).1 answers s' h 3 (.peek 0) rfl⟩, htokens,
    ((answers_of_requests "A" requests).2 _ htokens).2⟩

end Scanner

end TurtleCompiler
