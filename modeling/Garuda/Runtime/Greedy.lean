import Garuda.Runtime.Contract
import Garuda.Runtime.RoundRollback

/-!
# Speculative decoding is greedy decoding

At temperature zero the tokens that follow a prompt, and the reason they end, are functions of
the model alone: `greedyContext` and `outcome`. Both ways of decoding step along them, one token
at a time or several, so whoever calls until a stop is reported receives the same reply.

* `nextToken_advances`, `nextTokensSpeculative_advances` — the two ways
* `drain_running` — what calling until the stop gives
* `speculative_is_greedy` — the replies are equal
-/

namespace Garuda

open Infra

variable {σ κ K Γ : Type} [Weight K]

/-! ## Calling until a stop -/

/-- One call that appends tokens or reports a stop. -/
abbrev DecodeCall (σ κ Γ : Type) :=
  Session σ Γ → World σ κ → Except StopReason Unit × List Token × Session σ Γ × World σ κ

/-- Everything at most `n` calls produce, and the stop if one was reported. -/
def drain (call : DecodeCall σ κ Γ) : Nat → Session σ Γ → World σ κ →
    List Token × Option StopReason × Session σ Γ × World σ κ
  | 0, s, w => ([], none, s, w)
  | n + 1, s, w =>
    match call s w with
    | (.error reason, out, s, w) => (out, some reason, s, w)
    | (.ok (), out, s, w) =>
      let rest := drain call n s w
      (out ++ rest.1, rest.2)

namespace InferenceRuntime

variable (rt : InferenceRuntime σ κ K Γ) (params : SamplingParams K)

/-- `next_token`, with the token in the place where the speculative method puts it. -/
def plainCall : DecodeCall σ κ Γ := fun s w =>
  match rt.nextToken params s w with
  | (.ok t, s, w) => (.ok (), [t], s, w)
  | (.error reason, s, w) => (.error reason, [], s, w)

def speculativeCall (lookahead : Nat) : DecodeCall σ κ Γ := fun s w =>
  rt.nextTokensSpeculative params lookahead s [] w

/-! ## The greedy reply -/

variable (m : TokenModel K) (prompt : List Token)

/-- The model's first choice after `ctx`. -/
def pick (ctx : List Token) : Token := UInt32.ofNat (argmax rt.num (m.logits ctx))

/-- The prompt and the first `k` tokens of the reply. -/
def greedyContext : Nat → List Token
  | 0 => prompt
  | k + 1 => greedyContext k ++ [rt.pick m (greedyContext k)]

/-- Why the reply ends after `k` tokens, if it does. -/
def outcome (k : Nat) : Option StopReason :=
  if params.maxTokens ≤ k then some .length
  else if rt.maxContext ≤ prompt.length + k then some .contextFull
  else if rt.endsTurn (rt.pick m (rt.greedyContext m prompt k)) then some .eos
  else none

/-- Tokens `k`, …, `k + e - 1` of the reply. -/
def replyTokens (k e : Nat) : List Token :=
  (List.range' k e).map fun j => rt.pick m (rt.greedyContext m prompt j)

@[simp] theorem length_greedyContext (k : Nat) :
    (rt.greedyContext m prompt k).length = prompt.length + k := by
  induction k with
  | zero => rfl
  | succ k ih => rw [greedyContext, List.length_append, ih]; rfl

theorem replyTokens_append (k e f : Nat) :
    rt.replyTokens m prompt k (e + f)
      = rt.replyTokens m prompt k e ++ rt.replyTokens m prompt (k + e) f := by
  unfold replyTokens
  rw [← List.map_append, List.range'_append_1]

theorem pick_lt (ctx : List Token) : (rt.pick m ctx).toNat < m.vocab := by
  have hlen := m.logits_length ctx
  have hlt : argmax rt.num (m.logits ctx) < m.vocab := by
    rw [← hlen]
    refine argmax_lt rt.num fun hnil => ?_
    rw [hnil] at hlen
    exact absurd m.vocab_pos (by rw [← hlen]; simp)
  have hle := m.vocab_le
  rw [pick, UInt32.toNat_ofNat', Nat.mod_eq_of_lt (Nat.lt_of_lt_of_le hlt hle)]
  exact hlt

theorem greedyContext_knows (hprompt : m.Knows prompt) (k : Nat) :
    m.Knows (rt.greedyContext m prompt k) := by
  induction k with
  | zero => exact hprompt
  | succ k ih =>
    refine ih.append ?_
    intro t ht
    rw [List.mem_singleton.mp ht]
    exact rt.pick_lt m _

/-- At temperature zero the sampler picks the model's first choice. -/
theorem sample_pick (ht : (params.temperature == 0) = true) (ctx : List Token) (rng : Rng) :
    sample rt.num (m.logits ctx) params rng = (.ok (rt.pick m ctx), rng) := by
  refine sample_greedy rt.num (fun hnil => ?_) ht rng
  have hlen := m.logits_length ctx
  rw [hnil] at hlen
  exact absurd m.vocab_pos (by rw [← hlen]; simp)

/-! ## Sessions on the way -/

/-- A session that has produced `k` tokens of the greedy reply and is still running. -/
structure Running (s : Session σ Γ) (k : Nat) : Prop where
  finished : s.finished = false
  context : s.context = rt.greedyContext m prompt k
  promptLen : s.promptLen = prompt.length
  seq : Describes m rt.kvTemplate s.seq (rt.greedyContext m prompt k).dropLast
  earlier : ∀ j, j < k → rt.outcome params m prompt j = none

/-- A session that has been told why its reply ends after `k` tokens. A token that ends the turn
is in the context but not in the reply. -/
structure Ended (s : Session σ Γ) (k : Nat) (reason : StopReason) : Prop where
  finished : s.finished = true
  context : s.context = rt.greedyContext m prompt (if reason = .eos then k + 1 else k)
  promptLen : s.promptLen = prompt.length
  len : s.seq.len + 1 = s.context.length
  earlier : ∀ j, j < k → rt.outcome params m prompt j = none
  last : rt.outcome params m prompt k = some reason

/-- What a call does: some tokens of the reply, and then either more is to come or it ends. -/
def Advances (call : DecodeCall σ κ Γ) : Prop :=
  ∀ k s w, rt.Running params m prompt s k →
    ∃ e, (call s w).2.1 = rt.replyTokens m prompt k e ∧
      (((call s w).1 = .ok () ∧ 0 < e ∧ rt.Running params m prompt (call s w).2.2.1 (k + e)) ∨
        ∃ reason, (call s w).1 = .error reason ∧
          rt.Ended params m prompt (call s w).2.2.1 (k + e) reason)

section

variable {rt params m prompt}

theorem Running.generated {s : Session σ Γ} {k : Nat} (h : rt.Running params m prompt s k) :
    s.generated = k := by
  rw [Session.generated, h.context, h.promptLen, length_greedyContext]
  omega

theorem Running.len (hne : prompt ≠ []) {s : Session σ Γ} {k : Nat}
    (h : rt.Running params m prompt s k) : s.seq.len + 1 = s.context.length := by
  have hpos : 0 < prompt.length := List.length_pos_iff.mpr hne
  rw [h.seq.len_eq, h.context, List.length_dropLast, length_greedyContext]
  omega

/-- A running session has no step left exactly when the reply ends here for want of room. -/
theorem Running.spent {s : Session σ Γ} {k : Nat} (h : rt.Running params m prompt s k) :
    (∃ reason, rt.spent params s = some reason ∧ rt.outcome params m prompt k = some reason ∧
      reason ≠ .eos) ∨
    (rt.spent params s = none ∧ k < params.maxTokens ∧ prompt.length + k < rt.maxContext) := by
  unfold InferenceRuntime.spent outcome
  rw [h.finished, h.generated, h.context, length_greedyContext]
  by_cases hk : params.maxTokens ≤ k
  · left; simp [hk]
  · by_cases hc : rt.maxContext ≤ prompt.length + k
    · left; simp [hk, hc]
    · right
      simp [hk, hc]
      omega

theorem outcome_eq_eos {k : Nat} (hk : k < params.maxTokens)
    (hc : prompt.length + k < rt.maxContext)
    (he : rt.endsTurn (rt.pick m (rt.greedyContext m prompt k)) = true) :
    rt.outcome params m prompt k = some .eos := by
  unfold outcome
  rw [if_neg (by omega), if_neg (by omega), if_pos he]

theorem outcome_eq_none {k : Nat} (hk : k < params.maxTokens)
    (hc : prompt.length + k < rt.maxContext)
    (he : ¬ rt.endsTurn (rt.pick m (rt.greedyContext m prompt k)) = true) :
    rt.outcome params m prompt k = none := by
  unfold outcome
  rw [if_neg (by omega), if_neg (by omega), if_neg he]

theorem Running.ended_of_spent (hne : prompt ≠ []) {s : Session σ Γ} {k : Nat}
    (h : rt.Running params m prompt s k) {reason : StopReason}
    (hlast : rt.outcome params m prompt k = some reason) (hr : reason ≠ .eos) :
    rt.Ended params m prompt s.finish k reason where
  finished := rfl
  context := by rw [if_neg hr]; exact h.context
  promptLen := h.promptLen
  len := h.len hne
  earlier := h.earlier
  last := hlast

theorem lt_succ_cases {P : Nat → Prop} {k : Nat} (h : ∀ j, j < k → P j) (hk : P k) :
    ∀ j, j < k + 1 → P j := by
  intro j hj
  rcases Nat.lt_succ_iff_lt_or_eq.mp hj with hj | rfl
  · exact h j hj
  · exact hk

/-! ## One token at a time -/

variable (rt m) in
theorem greedyContext_dropLast_append (hne : prompt ≠ []) (k : Nat) :
    ∃ last, rt.greedyContext m prompt k = (rt.greedyContext m prompt k).dropLast ++ [last] := by
  have hctx : rt.greedyContext m prompt k ≠ [] := by
    rw [← List.length_pos_iff, length_greedyContext]
    have : 0 < prompt.length := List.length_pos_iff.mpr hne
    omega
  exact ⟨_, (List.dropLast_append_getLast hctx).symm⟩

theorem nextToken_advances (hb : rt.backend.Honours m rt.kvTemplate) (hne : prompt ≠ [])
    (hknows : m.Knows prompt) (ht : (params.temperature == 0) = true) :
    rt.Advances params m prompt (rt.plainCall params) := by
  intro k s w h
  rcases h.spent with ⟨reason, hspent, hlast, hr⟩ | ⟨hspent, hk, hc⟩
  · refine ⟨0, ?_, Or.inr ⟨reason, ?_⟩⟩
    · simp only [plainCall, nextToken, hspent]
      rfl
    · simp only [plainCall, nextToken, hspent]
      exact ⟨trivial, h.ended_of_spent hne hlast hr⟩
  · obtain ⟨last, hsplit⟩ := greedyContext_dropLast_append rt m hne k
    obtain ⟨seq, st, hlogits, hdescribes⟩ := hb.logits w.storage h.seq (show [last] ≠ [] by simp)
      (by rw [← hsplit]; exact rt.greedyContext_knows m prompt hknows k)
      (by rw [← hsplit, length_greedyContext]; unfold maxContext at hc; omega)
    rw [← hsplit] at hlogits hdescribes
    have hdrop : (rt.greedyContext m prompt (k + 1)).dropLast = rt.greedyContext m prompt k := by
      rw [greedyContext, List.dropLast_concat]
    simp only [plainCall, nextToken, hspent, h.context, hlogits, rt.sample_pick params m ht]
    by_cases he : rt.endsTurn (rt.pick m (rt.greedyContext m prompt k)) = true
    · rw [if_pos he]
      refine ⟨0, rfl, Or.inr ⟨.eos, rfl, ?_⟩⟩
      exact
        { finished := rfl
          context := rfl
          promptLen := h.promptLen
          len := by
            show seq.len + 1 = (rt.greedyContext m prompt k ++ [_]).length
            rw [hdescribes.len_eq, List.length_append]
            rfl
          earlier := h.earlier
          last := outcome_eq_eos hk hc he }
    · rw [if_neg he]
      refine ⟨1, rfl, Or.inl ⟨rfl, Nat.one_pos, ?_⟩⟩
      exact
        { finished := h.finished
          context := rfl
          promptLen := h.promptLen
          seq := by rw [hdrop]; exact hdescribes
          earlier := lt_succ_cases h.earlier (outcome_eq_none hk hc he) }

/-! ## Several tokens at a time -/

/-- A round never guesses past the budget or the window, nor outside the vocabulary. -/
theorem draft_greedy (ht : (params.temperature == 0) = true)
    (hdrafter : ∀ drafter kv, rt.drafter = some (drafter, kv) →
      ∀ (ctx : List Token) (seq : SeqState σ) (st : σ) (logits : List K),
        (drafter.logits ctx seq st).1 = .ok logits → logits.length ≤ m.vocab)
    {s : Session σ Γ} (hknows : m.Knows s.context) (budget : Nat) (w : World σ κ) :
    (rt.draft params budget s w).1.1.length ≤ rt.room params s ∧
      m.Knows (rt.draft params budget s w).1.1 := by
  obtain ⟨hsub, hlen⟩ :=
    draftFromContext_sublist s.context (min budget (rt.room params s)) NGRAM
  have hlookup : (draftFromContext s.context (min budget (rt.room params s)) NGRAM).length
      ≤ rt.room params s ∧
      m.Knows (draftFromContext s.context (min budget (rt.room params s)) NGRAM) :=
    ⟨by omega, hknows.sublist hsub⟩
  unfold draft
  split
  · next drafter kv hd =>
    split
    · generalize hp : proposeWithModel rt.num drafter params (min budget (rt.room params s))
        s.context (draftSeqOf kv s w).1 s.rng (draftSeqOf kv s w).2.storage = out
      obtain ⟨res, more⟩ := out
      simp only [hp]
      cases res with
      | error e => exact ⟨Nat.zero_le _, by intro t ht; simp at ht⟩
      | ok guesses =>
        obtain ⟨hn, hall⟩ := proposeWithModel_greedy ht (hdrafter drafter kv hd) _ _ _ _ _
          (congrArg Prod.fst hp)
        exact ⟨by simp only; omega, hall⟩
    · exact hlookup
  · exact hlookup

theorem verdict_greedy (ht : (params.temperature == 0) = true) (guess : Option Token)
    (dist : Option (List (Token × K))) (ctx : List Token) (rng : Rng) :
    rt.verdict params guess dist (m.logits ctx) rng
      = (some (guess == some (rt.pick m ctx), rt.pick m ctx), rng) := by
  have hs := rt.sample_pick params m ht ctx rng
  cases guess with
  | none => simp only [verdict, hs]; rfl
  | some g =>
    simp only [verdict, ht, if_true, hs]
    by_cases h : rt.pick m ctx = g
    · simp [h]
    · simp [h, Ne.symm h]

/-- The model's answers from guess `i` on, to the last of `n` guesses and one more. -/
def answersFrom (m : TokenModel K) (ctx guesses : List Token) (i r : Nat) : List (List K) :=
  (List.range' i r).map fun j => m.logits ((ctx ++ guesses).take (ctx.length + j))

variable (rt params m prompt) in
/-- What the loop over the answers leaves behind when it enters with `i` guesses confirmed: the
reply has moved on by `e` tokens, and `a` guesses are confirmed. -/
def Judged (k : Nat) (guesses : List Token) (i : Nat) (s : Session σ Γ) (out : List Token)
    (res : Session σ Γ × List Token × Option StopReason) : Prop :=
  ∃ e a, a ≤ guesses.length ∧
    rt.greedyContext m prompt (k + a) = rt.greedyContext m prompt k ++ guesses.take a ∧
    (∀ j, j < k + i + e → rt.outcome params m prompt j = none) ∧
    res.1 = { s with context := rt.greedyContext m prompt (k + a + 1) } ∧
    res.2.1 = out ++ rt.replyTokens m prompt (k + i) e ∧
    ((res.2.2 = none ∧ i + e = a + 1) ∨
      ∃ reason, res.2.2 = some reason ∧ rt.outcome params m prompt (k + i + e) = some reason ∧
        i + e = if reason = .eos then a else a + 1)

theorem Judged.next {k i : Nat} {guesses out : List Token} {s : Session σ Γ}
    {res : Session σ Γ × List Token × Option StopReason}
    (h : rt.Judged params m prompt k guesses (i + 1)
      { s with context := rt.greedyContext m prompt (k + i + 1) }
      (out ++ [rt.pick m (rt.greedyContext m prompt (k + i))]) res) :
    rt.Judged params m prompt k guesses i s out res := by
  obtain ⟨e, a, ha, hmatch, hearlier, hs, hout, hstop⟩ := h
  have hadd : k + (i + 1) + e = k + i + (1 + e) := by omega
  have hadd' : i + 1 + e = i + (1 + e) := by omega
  rw [hadd] at hearlier hstop
  rw [hadd'] at hstop
  refine ⟨1 + e, a, ha, hmatch, hearlier, hs, ?_, hstop⟩
  rw [hout, replyTokens_append, List.append_assoc]
  rfl

theorem judge_greedy_step (ht : (params.temperature == 0) = true) {k : Nat}
    {guesses : List Token} (dists : List (List (Token × K)))
    (hc : prompt.length + k + guesses.length < rt.maxContext) {i : Nat} (hi : i ≤ guesses.length)
    {s : Session σ Γ} {out : List Token} {rest : List (List K)}
    (hctx : s.context = rt.greedyContext m prompt (k + i)) (hprompt : s.promptLen = prompt.length)
    (hmatch : rt.greedyContext m prompt (k + i) = rt.greedyContext m prompt k ++ guesses.take i)
    (hk : k + i < params.maxTokens)
    (hearlier : ∀ j, j < k + i → rt.outcome params m prompt j = none)
    (hrec : i < guesses.length →
      rt.greedyContext m prompt (k + (i + 1))
        = rt.greedyContext m prompt k ++ guesses.take (i + 1) →
      k + (i + 1) < params.maxTokens →
      (∀ j, j < k + (i + 1) → rt.outcome params m prompt j = none) →
      rt.Judged params m prompt k guesses (i + 1)
        { s with context := rt.greedyContext m prompt (k + i + 1) }
        (out ++ [rt.pick m (rt.greedyContext m prompt (k + i))])
        (rt.judge params guesses dists (i + 1) rest
          { s with context := rt.greedyContext m prompt (k + i + 1) }
          (out ++ [rt.pick m (rt.greedyContext m prompt (k + i))]))) :
    rt.Judged params m prompt k guesses i s out
      (rt.judge params guesses dists i
        (m.logits (rt.greedyContext m prompt (k + i)) :: rest) s out) := by
  have hpush : ({ s with rng := s.rng }.push (rt.pick m (rt.greedyContext m prompt (k + i))))
      = { s with context := rt.greedyContext m prompt (k + i + 1) } := by
    rw [Session.push, hctx]
    rfl
  have hgen : ({ s with context := rt.greedyContext m prompt (k + i + 1) } : Session σ Γ).generated
      = k + i + 1 := by
    rw [Session.generated, hprompt, length_greedyContext]
    omega
  have hroom : prompt.length + (k + i) < rt.maxContext := by omega
  rw [judge]
  simp only [verdict_greedy ht, hpush, hgen]
  by_cases he : rt.endsTurn (rt.pick m (rt.greedyContext m prompt (k + i))) = true
  · rw [if_pos he]
    refine ⟨0, i, hi, hmatch, hearlier, rfl, (List.append_nil _).symm, Or.inr ⟨.eos, rfl, ?_, ?_⟩⟩
    · exact outcome_eq_eos hk hroom he
    · rfl
  rw [if_neg he]
  have hnone := outcome_eq_none hk hroom he
  have hearlier' := lt_succ_cases hearlier hnone
  by_cases hkept : guesses[i]? = some (rt.pick m (rt.greedyContext m prompt (k + i)))
  · have hlt : i < guesses.length := (List.getElem?_eq_some_iff.mp hkept).1
    have hmatch' : rt.greedyContext m prompt (k + (i + 1))
        = rt.greedyContext m prompt k ++ guesses.take (i + 1) := by
      rw [List.take_add_one, hkept, ← List.append_assoc, ← hmatch]
      rfl
    rw [if_neg (by simp [hkept])]
    by_cases hmax : params.maxTokens ≤ k + i + 1
    · rw [if_pos hmax]
      refine ⟨1, i, hi, hmatch, hearlier', rfl, rfl, Or.inr ⟨.length, rfl, ?_, rfl⟩⟩
      exact if_pos hmax
    · rw [if_neg hmax]
      exact (hrec hlt hmatch' (by omega) hearlier').next
  · rw [if_pos (by simpa using hkept)]
    exact ⟨1, i, hi, hmatch, hearlier', rfl, rfl, Or.inl ⟨rfl, rfl⟩⟩

/-- **The loop over the answers** follows the greedy reply, and stops at the first guess the
model would not have made or where the reply ends. -/
theorem judge_greedy (ht : (params.temperature == 0) = true) {k : Nat} {guesses : List Token}
    (dists : List (List (Token × K))) (hc : prompt.length + k + guesses.length < rt.maxContext) :
    ∀ (r i : Nat) (s : Session σ Γ) (out : List Token), i + r = guesses.length →
      s.context = rt.greedyContext m prompt (k + i) → s.promptLen = prompt.length →
      rt.greedyContext m prompt (k + i) = rt.greedyContext m prompt k ++ guesses.take i →
      k + i < params.maxTokens → (∀ j, j < k + i → rt.outcome params m prompt j = none) →
      rt.Judged params m prompt k guesses i s out (rt.judge params guesses dists i
        (answersFrom m (rt.greedyContext m prompt k) guesses i (r + 1)) s out) := by
  intro r
  induction r with
  | zero =>
    intro i s out hi hctx hprompt hmatch hk hearlier
    have hanswer : answersFrom m (rt.greedyContext m prompt k) guesses i (0 + 1)
        = [m.logits (rt.greedyContext m prompt (k + i))] := by
      rw [answersFrom, hmatch, ← List.take_length_add_append]
      rfl
    rw [hanswer]
    exact judge_greedy_step ht dists hc (by omega) hctx hprompt hmatch hk hearlier
      fun hlt => absurd hlt (by omega)
  | succ r ih =>
    intro i s out hi hctx hprompt hmatch hk hearlier
    have hanswer : answersFrom m (rt.greedyContext m prompt k) guesses i (r + 1 + 1)
        = m.logits (rt.greedyContext m prompt (k + i))
          :: answersFrom m (rt.greedyContext m prompt k) guesses (i + 1) (r + 1) := by
      rw [answersFrom, List.range'_succ, List.map_cons, hmatch, List.take_length_add_append]
      rfl
    rw [hanswer]
    refine judge_greedy_step ht dists hc (by omega) hctx hprompt hmatch hk hearlier ?_
    intro _ hmatch' hk' hearlier'
    exact ih (i + 1) _ _ (by omega) rfl hprompt hmatch' hk' hearlier'

omit [Weight K] in
theorem answersFrom_eq {ctx guesses : List Token} (hne : ctx ≠ []) :
    ((List.range (guesses.length + 1)).map fun i =>
        m.logits ((ctx ++ guesses).take ((ctx ++ guesses).length - (guesses.length + 1) + i + 1)))
      = answersFrom m ctx guesses 0 (guesses.length + 1) := by
  have hpos : 0 < ctx.length := List.length_pos_iff.mpr hne
  rw [answersFrom, ← List.range_eq_range']
  refine List.map_congr_left fun i _ => ?_
  rw [List.length_append, show ctx.length + guesses.length - (guesses.length + 1) + i + 1
    = ctx.length + i by omega]

/-- The pass of a round: the answers are the model's, and the sequence describes the context with
all guesses, of which any number can be cut off again. -/
theorem pass_greedy (hb : rt.backend.Honours m rt.kvTemplate)
    (hon : rt.backend.speculationSupported = true) (hne : prompt ≠ []) (hknows : m.Knows prompt)
    {s : Session σ Γ} {k : Nat} (h : rt.Running params m prompt s k) {guesses : List Token}
    (hguess : m.Knows guesses) (hc : prompt.length + k + guesses.length < rt.maxContext) (st : σ) :
    ∃ seq st', rt.backend.logitsMulti (s.context ++ guesses) s.seq (guesses.length + 1) st
        = (.ok (answersFrom m (rt.greedyContext m prompt k) guesses 0 (guesses.length + 1)),
          seq, st') ∧
      Describes m rt.kvTemplate seq (rt.greedyContext m prompt k ++ guesses) ∧
      ∀ n, prompt.length + k ≤ n → n < prompt.length + k + guesses.length →
        ∀ ls, some ls ∈ seq.linear → ls.recoverable n = true := by
  obtain ⟨last, hsplit⟩ := greedyContext_dropLast_append rt m hne k
  have hprobe : (rt.greedyContext m prompt k).dropLast ++ (last :: guesses)
      = rt.greedyContext m prompt k ++ guesses := by
    conv => rhs; rw [hsplit]
    rw [List.append_assoc]
    rfl
  have hlen : (rt.greedyContext m prompt k ++ guesses).length
      = prompt.length + k + guesses.length := by
    rw [List.length_append, length_greedyContext]
  have hctx : rt.greedyContext m prompt k ≠ [] := by rw [hsplit]; simp
  obtain ⟨seq, st', hpass, hdescribes, hcopies⟩ := hb.logitsMulti (guesses.length + 1) st hon h.seq
    (Nat.succ_pos _) (Nat.le_refl (last :: guesses).length)
    (by rw [hprobe]; exact (rt.greedyContext_knows m prompt hknows k).append hguess)
    (by rw [hprobe, hlen]; unfold maxContext at hc; omega)
  rw [hprobe] at hpass hdescribes hcopies
  rw [answersFrom_eq hctx] at hpass
  refine ⟨seq, st', by rw [h.context]; exact hpass, hdescribes, ?_⟩
  intro n hn hn'
  have hpos : 0 < prompt.length := List.length_pos_iff.mpr hne
  exact hcopies n (by rw [hlen]; omega) (by rw [hlen]; exact hn')

/-- What a running session drafts: guesses the model knows, and no more than there is room for. -/
theorem speculate_drafted (hknows : m.Knows prompt) (ht : (params.temperature == 0) = true)
    (hdrafter : ∀ drafter kv, rt.drafter = some (drafter, kv) →
      ∀ (ctx : List Token) (seq : SeqState σ) (st : σ) (logits : List K),
        (drafter.logits ctx seq st).1 = .ok logits → logits.length ≤ m.vocab)
    {s : Session σ Γ} {k : Nat} (h : rt.Running params m prompt s k) (hk : k < params.maxTokens)
    (hc : prompt.length + k < rt.maxContext) (lookahead : Nat) (w : World σ κ) :
    ∃ guesses dists s₁ w₁,
      rt.speculate params lookahead s [] w = rt.verify params guesses dists s₁ [] w₁ ∧
      rt.Running params m prompt s₁ k ∧ m.Knows guesses ∧
      prompt.length + k + guesses.length < rt.maxContext := by
  obtain ⟨idle, ds, rng, hs₁⟩ := rt.drafted_session params lookahead s w
  obtain ⟨idle', hbudget⟩ := rt.budget_session lookahead s
  have hcontext : (rt.budget lookahead s).2.context = rt.greedyContext m prompt k := by
    rw [hbudget]
    exact h.context
  have hgenerated : (rt.budget lookahead s).2.generated = k := by
    rw [hbudget]
    exact h.generated
  obtain ⟨hroom, hguess⟩ := draft_greedy (s := (rt.budget lookahead s).2) ht hdrafter
    (by rw [hcontext]; exact rt.greedyContext_knows m prompt hknows k)
    (rt.budget lookahead s).1 w
  rw [room, hgenerated, hcontext, length_greedyContext] at hroom
  refine ⟨_, _, _, _, rt.speculate_eq params lookahead s [] w, ?_, hguess, by omega⟩
  rw [hs₁]
  exact ⟨h.finished, h.context, h.promptLen, h.seq, h.earlier⟩

/-- The rollback of a round, and where it leaves the session. -/
theorem settle_greedy (hs : rt.kvTemplate.storage = none) {k : Nat} {guesses : List Token}
    {s : Session σ Γ} (hpromptLen : s.promptLen = prompt.length) (hfinished : s.finished = false)
    (hdescribes : Describes m rt.kvTemplate s.seq (rt.greedyContext m prompt k ++ guesses))
    (hcopies : ∀ n, prompt.length + k ≤ n → n < prompt.length + k + guesses.length →
      ∀ ls, some ls ∈ s.seq.linear → ls.recoverable n = true)
    {r : Round σ Γ}
    (hjudged : rt.Judged params m prompt k guesses 0 s [] (r.session, r.out, r.stop))
    (w : World σ κ) :
    ∃ e, r.out = rt.replyTokens m prompt k e ∧
      (((rt.settle r w).1 = .ok () ∧ 0 < e ∧
          rt.Running params m prompt (rt.settle r w).2.1 (k + e)) ∨
        ∃ reason, (rt.settle r w).1 = .error reason ∧
          rt.Ended params m prompt (rt.settle r w).2.1 (k + e) reason) := by
  obtain ⟨e, a, ha, hmatch, hearlier, hsession, hout, hstop⟩ := hjudged
  rw [Nat.add_zero, List.nil_append] at hout
  rw [Nat.zero_add, Nat.add_zero] at hstop
  rw [Nat.add_zero] at hearlier
  have hkeep : keepOf r = prompt.length + k + a := by
    rw [keepOf, show r.session = _ from hsession]
    show (rt.greedyContext m prompt (k + a + 1)).length - 1 = _
    rw [length_greedyContext]
    omega
  have hseq : r.session.seq = s.seq := by rw [show r.session = _ from hsession]
  have hlen : (rt.greedyContext m prompt k ++ guesses).length
      = prompt.length + k + guesses.length := by
    rw [List.length_append, length_greedyContext]
  obtain ⟨hok, hcut⟩ := hdescribes.truncate hs (n := prompt.length + k + a)
    (by rw [hlen]; omega)
    (by
      intro ls hls
      rcases Nat.lt_or_eq_of_le ha with hlt | heq
      · exact hcopies _ (by omega) (by omega) ls hls
      · have hfull := hdescribes.recoverable_length hls
        rw [hlen] at hfull
        rw [heq]
        exact hfull) w.storage
  rw [← length_greedyContext rt m prompt k, List.take_length_add_append, ← hmatch,
    length_greedyContext] at hcut
  obtain ⟨houtcome, gain, ds, hafter⟩ := rt.settle_accepted (w := w)
    (by rw [hkeep, hseq]; exact hok)
  rw [hkeep, hseq, show r.session = _ from hsession] at hafter
  refine ⟨e, hout, ?_⟩
  rw [houtcome, hafter]
  unfold Round.outcome
  rcases hstop with ⟨hnone, he⟩ | ⟨reason, hsome, hlast, he⟩
  · left
    rw [show r.stop = none from hnone]
    refine ⟨rfl, by omega, ?_⟩
    exact
      { finished := by simpa using hfinished
        context := by rw [he]; rfl
        promptLen := hpromptLen
        seq := by
          rw [he, ← Nat.add_assoc, greedyContext, List.dropLast_concat]
          exact hcut
        earlier := hearlier }
  · right
    rw [show r.stop = some reason from hsome]
    refine ⟨reason, rfl, ?_⟩
    exact
      { finished := by simp
        context := by
          show rt.greedyContext m prompt (k + a + 1) = _
          congr 1
          split at he
          · rw [if_pos ‹_›, he]
          · rw [if_neg ‹_›, he]; omega
        promptLen := hpromptLen
        len := by
          show SeqState.len _ + 1 = (rt.greedyContext m prompt (k + a + 1)).length
          rw [hcut.len_eq, length_greedyContext, length_greedyContext]
          omega
        earlier := hearlier
        last := hlast }

theorem nextTokensSpeculative_advances (hs : rt.kvTemplate.storage = none)
    (hb : rt.backend.Honours m rt.kvTemplate) (hne : prompt ≠ []) (hknows : m.Knows prompt)
    (ht : (params.temperature == 0) = true)
    (hdrafter : ∀ drafter kv, rt.drafter = some (drafter, kv) →
      ∀ (ctx : List Token) (seq : SeqState σ) (st : σ) (logits : List K),
        (drafter.logits ctx seq st).1 = .ok logits → logits.length ≤ m.vocab) (lookahead : Nat) :
    rt.Advances params m prompt (rt.speculativeCall params lookahead) := by
  intro k s w h
  by_cases hoff : lookahead = 0 ∨ ¬ rt.backend.speculationSupported
  · have hplain : rt.speculativeCall params lookahead s w = rt.plainCall params s w := by
      unfold speculativeCall nextTokensSpeculative plainCall
      rw [if_pos hoff]
      rfl
    rw [hplain]
    exact nextToken_advances hb hne hknows ht k s w h
  have hon : 0 < lookahead ∧ rt.backend.speculationSupported = true := by
    push Not at hoff
    exact ⟨Nat.pos_of_ne_zero hoff.1, hoff.2⟩
  rcases h.spent with ⟨reason, hspent, hlast, hr⟩ | ⟨hspent, hk, hc⟩
  · refine ⟨0, ?_, Or.inr ⟨reason, ?_⟩⟩
    · simp only [speculativeCall, nextTokensSpeculative, if_neg hoff, hspent]
      rfl
    · simp only [speculativeCall, nextTokensSpeculative, if_neg hoff, hspent]
      exact ⟨trivial, h.ended_of_spent hne hlast hr⟩
  obtain ⟨guesses, dists, s₁, w₁, hspec, h₁, hguess, hc'⟩ :=
    speculate_drafted hknows ht hdrafter h hk hc lookahead w
  obtain ⟨seq, st, hpass, hdescribes, hcopies⟩ :=
    pass_greedy hb hon.2 hne hknows h₁ hguess hc' w₁.storage
  have hjudged := judge_greedy ht dists hc' guesses.length 0 { s₁ with seq := seq } []
    (Nat.zero_add _) h₁.context h₁.promptLen (by rw [List.take_zero, List.append_nil]; rfl) hk
    h₁.earlier
  simp only [verify, hpass] at hspec
  generalize rt.judge params guesses dists 0 _ { s₁ with seq := seq } [] = res at hjudged hspec
  obtain ⟨s₂, out, stop⟩ := res
  unfold speculativeCall
  rw [rt.nextTokensSpeculative_round params ⟨hon.1, hon.2, hspent⟩ hspec]
  exact settle_greedy (s := { s₁ with seq := seq })
    (r := { session := s₂, base := s₁.context.length, draft := guesses, out := out, stop := stop })
    hs h₁.promptLen h₁.finished hdescribes hcopies hjudged _

/-! ## The whole reply -/

/-- **Calling until the stop** gives the reply to its end, whatever the calls are. -/
theorem drain_running {call : DecodeCall σ κ Γ} (hcall : rt.Advances params m prompt call) :
    ∀ (n k : Nat) (s : Session σ Γ) (w : World σ κ), rt.Running params m prompt s k →
      params.maxTokens < k + n →
      ∃ e reason, (drain call n s w).1 = rt.replyTokens m prompt k e ∧
        (drain call n s w).2.1 = some reason ∧
        (∀ j, j < k + e → rt.outcome params m prompt j = none) ∧
        rt.outcome params m prompt (k + e) = some reason := by
  intro n
  induction n with
  | zero =>
    intro k s w h hn
    -- a running session has no more than `maxTokens` tokens
    have := h.earlier params.maxTokens hn
    simp [outcome] at this
  | succ n ih =>
    intro k s w h hn
    obtain ⟨e, hout, hnext⟩ := hcall k s w h
    rw [drain]
    generalize call s w = res at hout hnext
    obtain ⟨res, out, s', w'⟩ := res
    rcases hnext with ⟨hok, he, h'⟩ | ⟨reason, herr, h'⟩
    · simp only at hok hout
      subst hok
      subst hout
      obtain ⟨f, reason, hrest, hstop, hearlier, hlast⟩ := ih (k + e) s' w' h' (by omega)
      rw [Nat.add_assoc] at hearlier hlast
      refine ⟨e + f, reason, ?_, hstop, hearlier, hlast⟩
      show _ ++ (drain call n s' w').1 = _
      rw [hrest, replyTokens_append]
    · simp only at herr hout
      subst herr
      exact ⟨e, reason, hout, rfl, h'.earlier, h'.last⟩

/-- A session that the calls lead to holds the greedy context of its own length. -/
def OnReply (rt : InferenceRuntime σ κ K Γ) (m : TokenModel K) (prompt : List Token)
    (s : Session σ Γ) : Prop :=
  s.context = rt.greedyContext m prompt s.generated ∧ s.seq.len + 1 = s.context.length

theorem drain_onReply (hne : prompt ≠ []) {call : DecodeCall σ κ Γ}
    (hcall : rt.Advances params m prompt call) :
    ∀ (n k : Nat) (s : Session σ Γ) (w : World σ κ), rt.Running params m prompt s k →
      rt.OnReply m prompt (drain call n s w).2.2.1 := by
  intro n
  induction n with
  | zero =>
    intro k s w h
    exact ⟨by rw [drain, h.generated]; exact h.context, h.len hne⟩
  | succ n ih =>
    intro k s w h
    obtain ⟨e, _, hnext⟩ := hcall k s w h
    rw [drain]
    generalize call s w = res at hnext
    obtain ⟨res, out, s', w'⟩ := res
    rcases hnext with ⟨hok, _, h'⟩ | ⟨reason, herr, h'⟩
    · simp only at hok
      subst hok
      exact ih (k + e) s' w' h'
    · simp only at herr
      subst herr
      refine ⟨?_, h'.len⟩
      have hcontext : s'.context = _ := h'.context
      have hprompt : s'.promptLen = _ := h'.promptLen
      show s'.context = rt.greedyContext m prompt s'.generated
      rw [Session.generated, hprompt, hcontext, length_greedyContext, Nat.add_sub_cancel_left]

/-- The end of the reply is where its first outcome is. -/
theorem first_outcome_unique {e f : Nat} {r q : StopReason}
    (he : ∀ j, j < e → rt.outcome params m prompt j = none)
    (hf : ∀ j, j < f → rt.outcome params m prompt j = none)
    (hr : rt.outcome params m prompt e = some r) (hq : rt.outcome params m prompt f = some q) :
    e = f ∧ r = q := by
  have hef : e = f := by
    rcases Nat.lt_trichotomy e f with hlt | heq | hgt
    · rw [hf e hlt] at hr; simp at hr
    · exact heq
    · rw [he f hgt] at hq; simp at hq
  subst hef
  exact ⟨rfl, Option.some.inj (hr.symm.trans hq)⟩

end

variable [DecidableEq κ]

/--
**Greedy speculative decoding is plain greedy decoding.** Two sessions with one prompt, each
called until it reports a stop, `next_token` on one and `next_tokens_speculative` on the other:
the replies and the stop reasons are equal. And whenever the two have produced equally many
tokens, their contexts and the lengths of their sequences are equal.
-/
theorem speculative_is_greedy {rt : InferenceRuntime σ κ K Γ} {params : SamplingParams K}
    {m : TokenModel K} {prompt : List Token} (hs : rt.kvTemplate.storage = none)
    (hb : rt.backend.Honours m rt.kvTemplate)
    (hdrafter : ∀ drafter kv, rt.drafter = some (drafter, kv) →
      ∀ (ctx : List Token) (seq : SeqState σ) (st : σ) (logits : List K),
        (drafter.logits ctx seq st).1 = .ok logits → logits.length ≤ m.vocab)
    (ht : (params.temperature == 0) = true) (hknows : m.Knows prompt) {w₁ w₂ : World σ κ}
    (hcache₁ : w₁.promptCache.Faithful m rt.kvTemplate rt.promptKey)
    (hcache₂ : w₂.promptCache.Faithful m rt.kvTemplate rt.promptKey) {s₁ s₂ : Session σ Γ}
    {w₁' w₂' : World σ κ} (h₁ : rt.start params prompt w₁ = (.ok s₁, w₁'))
    (h₂ : rt.start params prompt w₂ = (.ok s₂, w₂')) (lookahead : Nat) :
    (∃ reply reason, ∀ n, params.maxTokens < n →
      ((drain (rt.plainCall params) n s₁ w₁').1 = reply ∧
        (drain (rt.plainCall params) n s₁ w₁').2.1 = some reason) ∧
      ((drain (rt.speculativeCall params lookahead) n s₂ w₂').1 = reply ∧
        (drain (rt.speculativeCall params lookahead) n s₂ w₂').2.1 = some reason)) ∧
    ∀ i j,
      let plain := (drain (rt.plainCall params) i s₁ w₁').2.2.1
      let speculative := (drain (rt.speculativeCall params lookahead) j s₂ w₂').2.2.1
      plain.generated = speculative.generated →
        plain.context = speculative.context ∧ plain.seq.len = speculative.seq.len := by
  have running : ∀ {w w' : World σ κ} {s : Session σ Γ},
      w.promptCache.Faithful m rt.kvTemplate rt.promptKey →
      rt.start params prompt w = (.ok s, w') → prompt ≠ [] ∧ rt.Running params m prompt s 0 := by
    intro w w' s hcache h
    obtain ⟨hne, _, hcontext, hpromptLen, hfinished, hdescribes, _⟩ :=
      start_describes hb hknows hcache h
    exact ⟨hne, hfinished, hcontext, hpromptLen, hdescribes, fun j hj => absurd hj (by omega)⟩
  obtain ⟨hne, hrun₁⟩ := running hcache₁ h₁
  obtain ⟨_, hrun₂⟩ := running hcache₂ h₂
  have hplain := nextToken_advances hb hne hknows ht
  have hspec := nextTokensSpeculative_advances hs hb hne hknows ht hdrafter lookahead
  constructor
  · obtain ⟨e, reason, _, _, hearlier, hlast⟩ :=
      drain_running hplain (params.maxTokens + 1) 0 s₁ w₁' hrun₁ (by omega)
    refine ⟨rt.replyTokens m prompt 0 e, reason, fun n hn => ⟨?_, ?_⟩⟩
    · obtain ⟨f, q, hreply, hstop, hf, hq⟩ := drain_running hplain n 0 s₁ w₁' hrun₁ (by omega)
      obtain ⟨hef, rfl⟩ := first_outcome_unique hearlier hf hlast hq
      rw [show e = f by omega]
      exact ⟨hreply, hstop⟩
    · obtain ⟨f, q, hreply, hstop, hf, hq⟩ := drain_running hspec n 0 s₂ w₂' hrun₂ (by omega)
      obtain ⟨hef, rfl⟩ := first_outcome_unique hearlier hf hlast hq
      rw [show e = f by omega]
      exact ⟨hreply, hstop⟩
  · intro i j plain speculative hgen
    obtain ⟨hctx₁, hlen₁⟩ := drain_onReply hne hplain i 0 s₁ w₁' hrun₁
    obtain ⟨hctx₂, hlen₂⟩ := drain_onReply hne hspec j 0 s₂ w₂' hrun₂
    have hctx : plain.context = speculative.context := by
      rw [show plain.context = _ from hctx₁, show speculative.context = _ from hctx₂]
      exact congrArg _ hgen
    have hlen := congrArg List.length hctx
    refine ⟨hctx, ?_⟩
    have hlen₁ : plain.seq.len + 1 = plain.context.length := hlen₁
    have hlen₂ : speculative.seq.len + 1 = speculative.context.length := hlen₂
    omega

end InferenceRuntime

/-! ## A backend that honours the contract -/

/-- Without storage, and with nothing on disk, a token is just pushed. -/
theorem KVCacheState.attend_push {kv : KVCacheState σ} {key value : List F32}
    (hs : kv.storage = none) (hspilled : kv.spilled = ∅) (hk : key.length = kv.kvDim)
    (hv : value.length = kv.kvDim) (hroom : kv.len < kv.maxPositions) (st : σ) :
    kv.attend key value st = (.ok (), kv.push key value, st) := by
  have happend : kv.append key value st = (.ok (), kv.push key value, st) := by
    rw [append, if_neg (by simp [hk, hv]), if_neg (by omega), enforceResidency]
    split
    · rfl
    · rw [show (kv.push key value).storage = none from hs]
  rw [attend, happend]
  simp only
  unfold ensureResident
  split
  · rfl
  · have hneeded : (kv.push key value).needed (kv.push key value).attentionStart (kv.len + 1)
        = [] := by
      refine List.filter_eq_nil_iff.mpr fun b _ => ?_
      rw [show (kv.push key value).spilled = ∅ from hspilled]
      simp
    rw [hneeded]
    rfl

/-- One token through the layers from `done.length` on. -/
theorem stub_row (width : Nat) (linear : List (Option LinearState)) (recording : Bool) (st : σ) :
    ∀ (todo done : List (KVCacheState σ)),
      (∀ kv ∈ todo, kv.attend (.replicate width ⟨0⟩) (.replicate width ⟨0⟩) st
        = (.ok (), kv.push (.replicate width ⟨0⟩) (.replicate width ⟨0⟩), st)) →
      runList SeqState.consume ((List.range' done.length todo.length).map fun l =>
          .attend l (.replicate width ⟨0⟩) (.replicate width ⟨0⟩))
        ({ kvs := done ++ todo, linear := linear, recording := recording }, st)
      = some ({ kvs := done ++ todo.map fun kv =>
                  kv.push (.replicate width ⟨0⟩) (.replicate width ⟨0⟩)
                linear := linear, recording := recording }, st)
  | [], done, _ => by simp
  | kv :: todo, done, h => by
    obtain ⟨hkv, hrest⟩ := List.forall_mem_cons.mp h
    have ih := stub_row width linear recording st todo
      (done ++ [kv.push (.replicate width ⟨0⟩) (.replicate width ⟨0⟩)]) hrest
    rw [List.length_append, List.length_singleton, List.append_assoc, List.append_assoc] at ih
    rw [List.length_cons, List.range'_succ, List.map_cons, runList_cons]
    refine ⟨_, ?_, ih⟩
    simp [SeqState.consume, hkv]

/-- What the stub computes, as a model. -/
def stubModel (next : List Token → Token) (width : Nat) : TokenModel Int where
  vocab := 8
  vocab_pos := by decide
  vocab_le := by decide
  entry _ _ := (.replicate width ⟨0⟩, .replicate width ⟨0⟩)
  recurrent _ := false
  summary _ _ := ([], [])
  hidden _ := []
  logits ts := oneHot 8 (next ts)
  logits_length ts := by simp [oneHot]

section

variable {next : List Token → Token} {width : Nat} {cfg : KvConfig σ} {seq : SeqState σ}
variable {ts : List Token}

theorem stub_token (hs : cfg.storage = none)
    (hwidth : ∀ seqId l, (KVCacheState.forLayer cfg seqId l).kvDim = width)
    (h : Describes (stubModel next width) cfg seq ts) (t : Token)
    (hroom : ts.length < cfg.maxPositions.toNat) (st : σ) :
    ∃ seq', seq'.kvs.length = seq.kvs.length ∧
      Describes (stubModel next width) cfg seq' (ts ++ [t]) ∧
      runList SeqState.consume ((List.range seq.kvs.length).map fun l =>
        .attend l (.replicate width ⟨0⟩) (.replicate width ⟨0⟩)) (seq, st) = some (seq', st) := by
  obtain ⟨seqId, hlayers⟩ := h.layers
  have hroom' : ∀ (l : Nat) (kv : KVCacheState σ), seq.kvs[l]? = some kv →
      kv.len < kv.maxPositions := by
    intro l kv hkv
    obtain ⟨hshape, hholds⟩ := hlayers l kv hkv
    rw [hholds.len_eq, TokenModel.length_kvOf, hshape.maxPositions]
    simp only [KVCacheState.forLayer]
    omega
  have hdim : ∀ (l : Nat) (kv : KVCacheState σ), seq.kvs[l]? = some kv → kv.kvDim = width := by
    intro l kv hkv
    rw [(hlayers l kv hkv).1.kvDim]
    exact hwidth seqId l
  have hrow := stub_row width seq.linear seq.recording st seq.kvs [] (by
    intro kv hmem
    obtain ⟨l, hkv⟩ := List.mem_iff_getElem?.mp hmem
    obtain ⟨hshape, hholds⟩ := hlayers l kv hkv
    refine KVCacheState.attend_push (by rw [hshape.storage]; exact hs) ?_ (by simp [hdim l kv hkv])
      (by simp [hdim l kv hkv]) (hroom' l kv hkv) st
    exact Std.ExtTreeMap.eq_empty_iff_forall_not_mem.mpr hholds.nothing_spilled)
  rw [List.length_nil, ← List.range_eq_range'] at hrow
  refine ⟨_, ?_, ?_, hrow⟩
  · simp
  refine
    { size := by simpa using h.size
      sizeLinear := by simpa using h.sizeLinear
      layers := ⟨seqId, ?_⟩
      linear := ?_ }
  · intro l kv hkv
    simp only [List.nil_append, List.getElem?_map, Option.map_eq_some_iff] at hkv
    obtain ⟨kv, hkv, rfl⟩ := hkv
    obtain ⟨hshape, hholds⟩ := hlayers l kv hkv
    refine ⟨hshape.trans (KVCacheState.push_shape kv _ _), ?_⟩
    rw [TokenModel.kvOf_concat]
    exact hholds.push (by simp [hdim l kv hkv]) (by simp [hdim l kv hkv]) (hroom' l kv hkv)
  · intro l o ho
    have hnone : o = none := (h.linear l o ho).plain rfl
    subst hnone
    exact TokenModel.recalls_none fun hr => absurd hr (by simp [stubModel])

theorem stub_tokens (hs : cfg.storage = none)
    (hwidth : ∀ seqId l, (KVCacheState.forLayer cfg seqId l).kvDim = width) (st : σ) :
    ∀ (new ts : List Token) (seq : SeqState σ), Describes (stubModel next width) cfg seq ts →
      (ts ++ new).length ≤ cfg.maxPositions.toNat →
      ∃ seq', Describes (stubModel next width) cfg seq' (ts ++ new) ∧
        runList SeqState.consume (stubSteps width seq.kvs.length new.length) (seq, st)
          = some (seq', st)
  | [], ts, seq, h, _ => ⟨seq, by rw [List.append_nil]; exact h, rfl⟩
  | t :: new, ts, seq, h, hlen => by
    rw [List.length_append, List.length_cons] at hlen
    obtain ⟨seq₁, hkvs, h₁, hrow⟩ := stub_token hs hwidth h t (by omega) st
    obtain ⟨seq', h', hrun⟩ := stub_tokens hs hwidth st new (ts ++ [t]) seq₁ h₁
      (by rw [List.length_append, List.length_append, List.length_singleton]; omega)
    rw [List.append_assoc] at h'
    refine ⟨seq', h', ?_⟩
    rw [List.length_cons, stubSteps, runList_append]
    exact ⟨(seq₁, st), hrow, by rw [← hkvs]; exact hrun⟩

/-- The stub honours the contract. -/
theorem stub_honours (next : List Token → Token) (hs : cfg.storage = none)
    (hwidth : ∀ seqId l, (KVCacheState.forLayer cfg seqId l).kvDim = width) :
    (stubBackend next 8 width : InferenceBackend σ Int).Honours (stubModel next width) cfg := by
  have hpass : ∀ {seq : SeqState σ} {ts new : List Token} (st : σ),
      Describes (stubModel next width) cfg seq ts → (ts ++ new).length ≤ cfg.maxPositions.toNat →
      ∃ seq', stubPass width (ts ++ new) seq st = some (seq', st) ∧
        Describes (stubModel next width) cfg seq' (ts ++ new) := by
    intro seq ts new st h hlen
    obtain ⟨seq', h', hrun⟩ := stub_tokens hs hwidth st new ts seq h hlen
    refine ⟨seq'.endRecording, ?_, ⟨h'.size, h'.sizeLinear, h'.layers, h'.linear⟩⟩
    rw [stubPass, h.len_eq, List.length_append, Nat.add_sub_cancel_left, hrun]
    rfl
  refine
    { hidden := ?_
      logits := ?_
      logitsMulti := ?_ }
  · intro seq ts new st h _ _ hlen
    obtain ⟨seq', hrun, h'⟩ := hpass st h hlen
    exact ⟨seq', st, by simp only [stubBackend, hrun]; rfl, h'⟩
  · intro seq ts new st h _ _ hlen
    obtain ⟨seq', hrun, h'⟩ := hpass st h hlen
    exact ⟨seq', st, by simp only [stubBackend, hrun]; rfl, h'⟩
  · intro seq ts new n st _ h _ _ _ hlen
    obtain ⟨seq', hrun, h'⟩ := hpass st h hlen
    refine ⟨seq', st, by simp only [stubBackend, hrun]; rfl, h', ?_⟩
    intro j _ _ ls hls
    obtain ⟨l, hl⟩ := List.mem_iff_getElem?.mp hls
    exact absurd ((h'.linear l _ hl).plain rfl) (by simp)

end

/-- A model that counts 3, 4, 5 over and over. -/
def counting (ctx : List Token) : Token :=
  match ctx.getLast? with
  | some 3 => 4
  | some 4 => 5
  | _ => 3

/-- Without spill storage, and without a draft model: the guesses come from the prompt. -/
def countingRuntime : InferenceRuntime (Path → Option Bytes) (List Token) Int Nat :=
  stubRuntime { tinyCfg 4 2 none memoryStorage with storage := none } counting

theorem speculative_is_greedy_counting :
    ∃ s w, countingRuntime.start (greedyParams 8) [3, 4, 5, 3, 4, 5, 3] emptyWorld = (.ok s, w) ∧
      ∃ reply reason, ∀ n, 8 < n →
        ((drain (countingRuntime.plainCall (greedyParams 8)) n s w).1 = reply ∧
          (drain (countingRuntime.plainCall (greedyParams 8)) n s w).2.1 = some reason) ∧
        ((drain (countingRuntime.speculativeCall (greedyParams 8) 2) n s w).1 = reply ∧
          (drain (countingRuntime.speculativeCall (greedyParams 8) 2) n s w).2.1 = some reason) := by
  have hstart : (countingRuntime.start (greedyParams 8) [3, 4, 5, 3, 4, 5, 3]
      emptyWorld).1.toOption.isSome = true := by
    decide +kernel
  generalize hout : countingRuntime.start (greedyParams 8) [3, 4, 5, 3, 4, 5, 3] emptyWorld = out
    at hstart
  obtain ⟨res, w⟩ := out
  cases res with
  | error e => simp [Except.toOption] at hstart
  | ok s =>
    have hcache : (emptyWorld.promptCache).Faithful (stubModel counting 1)
        countingRuntime.kvTemplate countingRuntime.promptKey := PromptCache.keeps_new _ 1 0
    have hknows : (stubModel counting 1).Knows [3, 4, 5, 3, 4, 5, 3] := by
      intro t ht
      simp only [List.mem_cons, List.not_mem_nil, or_false] at ht
      rcases ht with rfl | rfl | rfl | rfl | rfl | rfl | rfl <;> simp [stubModel]
    exact ⟨s, w, rfl, (InferenceRuntime.speculative_is_greedy rfl
      (stub_honours counting rfl fun _ _ => rfl)
      (by intro drafter kv hd; simp [countingRuntime, stubRuntime] at hd) rfl hknows hcache hcache
      hout hout 2).1⟩

end Garuda
