import Notbit.Pow.Holders

/-!
# Nonces — the threads that search for one cookie share the nonces between them (`ntb-pow.c`)

The thread with the offset `o` tries `o`, `o + n`, `o + 2 * n` and so on, where `n` is the number of
threads.  The offsets of a cookie are handed out one after the other, so no two threads try the same
nonce before the numbers wrap around, and no nonce is left out.
-/

open Runs

namespace Notbit.Pow

/-! ## 1. The nonces of one thread -/

/-- The nonce that the thread with an offset tries after `k` others. -/
def trial (n offset : Nat) : Nat → Nat
  | 0 => offset
  | k + 1 => (trial n offset k + n) % 2 ^ 64

-- Below the wrap-around the numbers are in steps of `n`.
theorem trial_eq {n offset k : Nat} (h : offset + k * n < 2 ^ 64) :
    trial n offset k = offset + k * n := by
  induction k with
  | zero => simp [trial]
  | succ k ih =>
    have hstep : offset + (k + 1) * n = offset + k * n + n := by ring
    rw [hstep] at h ⊢
    rw [trial, ih (by omega), Nat.mod_eq_of_lt h]

/-- A cookie that has a solution or was cancelled. -/
def State.IsDone (s : State) (id : Nat) : Prop := ∃ c, s.cookies[id]? = some c ∧ c.done = true

/-- The nonce a thread is at, when it has not solved its cookie. -/
def Worker.At (s : State) (nonce : Nat) : Worker → Prop
  | .searching _ m _ => m = nonce
  | .locking id m => s.IsDone id ∨ m = nonce
  | _ => True

structure Shared (n : Nat) (h : History) : Prop where
  /-- What was tried with an offset is the start of its row of nonces. -/
  tried : ∀ id o, h.triedBy id o = (List.range (h.triedBy id o).length).map (trial n o)
  untried : ∀ id o, h.state.nextOffset id ≤ o → h.triedBy id o = []
  offsets : ∀ w p id, h.state.workers[w]? = some p → p.cookie = some id →
    h.current w < h.state.nextOffset id ∧
      p.At h.state (trial n (h.current w) (h.triedBy id (h.current w)).length)
  /-- Two threads at one cookie have different offsets. -/
  apart : ∀ w w' p p' id, h.state.workers[w]? = some p → h.state.workers[w']? = some p' →
    p.cookie = some id → p'.cookie = some id → h.current w = h.current w' → w = w'

section Step

variable {ssl : OpenSSL} {n : Nat} {h h' : History} {s : State}

theorem Worker.At.mono {s s' : State} {p : Worker} {nonce : Nat} (hp : p.At s nonce)
    (hdone : ∀ id, s.IsDone id → s'.IsDone id) : p.At s' nonce := by
  cases p with
  | searching _ m _ => exact hp
  | locking id m => exact hp.imp (hdone id) fun heq => heq
  | _ => trivial

-- A step that leaves the threads, their offsets and what they have tried as they are.
theorem Shared.of_same (hs : Shared n h) (hworkers : h'.state.workers = h.state.workers)
    (hcurrent : h'.current = h.current) (htried : h'.tried = h.tried)
    (hnext : ∀ id, h'.state.nextOffset id = h.state.nextOffset id)
    (hdone : ∀ id, h.state.IsDone id → h'.state.IsDone id) : Shared n h' := by
  have htriedBy : h'.triedBy = h.triedBy := by
    funext id o
    rw [History.triedBy, htried, History.triedBy]
  refine ⟨?_, ?_, ?_, ?_⟩
  · rw [htriedBy]
    exact hs.tried
  · intro id o hle
    rw [hnext] at hle
    rw [htriedBy]
    exact hs.untried id o hle
  · intro w p id hw hp
    rw [hworkers] at hw
    obtain ⟨hlt, hat⟩ := hs.offsets w p id hw hp
    rw [hcurrent, hnext, htriedBy]
    exact ⟨hlt, hat.mono hdone⟩
  · rw [hworkers, hcurrent]
    exact hs.apart

theorem getElem?_setWorker {w w' : Nat} {p p' q : Worker} (hw : s.workers[w]? = some p)
    (hq : (s.setWorker w p').workers[w']? = some q) :
    (w' = w ∧ q = p') ∨ (w' ≠ w ∧ s.workers[w']? = some q) := by
  have hset : (s.workers.set w p')[w']? = some q := hq
  by_cases heq : w' = w
  · subst heq
    rw [List.getElem?_set_self (List.getElem?_eq_some_iff.mp hw).1] at hset
    exact Or.inl ⟨rfl, (Option.some.inj hset).symm⟩
  · rw [List.getElem?_set_ne (fun hne => heq hne.symm)] at hset
    exact Or.inr ⟨heq, hset⟩

-- A thread that stays at its cookie or leaves it, without trying a nonce.
theorem Shared.setWorker {w : Nat} {p : Worker} (hs : Shared n h)
    (hw : h.state.workers[w]? = some p) (p' : Worker)
    (hcookie : ∀ id, p'.cookie = some id → p.cookie = some id ∧
      p'.At h.state (trial n (h.current w) (h.triedBy id (h.current w)).length)) :
    Shared n { h with state := h.state.setWorker w p' } := by
  refine ⟨hs.tried, hs.untried, ?_, ?_⟩
  · intro w' q id hq hqid
    rcases getElem?_setWorker hw hq with ⟨rfl, rfl⟩ | ⟨-, hold⟩
    · obtain ⟨hp, hat⟩ := hcookie id hqid
      exact ⟨(hs.offsets w' p id hw hp).1, hat⟩
    · exact hs.offsets w' q id hold hqid
  · intro w₁ w₂ p₁ p₂ id hw₁ hw₂ hp₁ hp₂ hsame
    -- a thread that is at the cookie now was at it before
    have hbefore : ∀ (w' : Nat) (q : Worker), (h.state.setWorker w p').workers[w']? = some q →
        q.cookie = some id →
        ∃ q' : Worker, h.state.workers[w']? = some q' ∧ q'.cookie = some id := by
      intro w' q hq hqid
      rcases getElem?_setWorker hw hq with ⟨rfl, rfl⟩ | ⟨-, hold⟩
      · exact ⟨p, hw, (hcookie id hqid).1⟩
      · exact ⟨q, hold, hqid⟩
    obtain ⟨q₁, hq₁, hid₁⟩ := hbefore w₁ p₁ hw₁ hp₁
    obtain ⟨q₂, hq₂, hid₂⟩ := hbefore w₂ p₂ hw₂ hp₂
    exact hs.apart w₁ w₂ q₁ q₂ id hq₁ hq₂ hid₁ hid₂ hsame

theorem triedBy_append (h : History) (id o nonce id' o' : Nat) :
    History.triedBy { h with tried := h.tried ++ [(id, o, nonce)] } id' o' =
      h.triedBy id' o' ++ if id' = id ∧ o' = o then [nonce] else [] := by
  unfold History.triedBy
  rw [List.filter_append, List.map_append]
  by_cases hsame : id' = id ∧ o' = o
  · rw [if_pos hsame]
    simp [hsame.1, hsame.2]
  · have hother : ¬ (id = id' ∧ o = o') := fun heq => hsame ⟨heq.1.symm, heq.2.symm⟩
    rw [if_neg hsame]
    simp [hother]

/-- A thread tries the nonce it is at. -/
theorem Shared.tryNonce {w id nonce i : Nat} (hs : Shared n h)
    (hw : h.state.workers[w]? = some (.searching id nonce i)) (p' : Worker)
    (hp' : p'.cookie = some id) (hat : p'.At h.state ((nonce + n) % 2 ^ 64)) :
    Shared n { h with
      state := h.state.setWorker w p'
      tried := h.tried ++ [(id, h.current w, nonce)] } := by
  obtain ⟨hlt, hnonce⟩ := hs.offsets w _ id hw rfl
  have hnonce' : nonce = trial n (h.current w) (h.triedBy id (h.current w)).length := hnonce
  have htriedBy : ∀ id' o', History.triedBy { h with
      state := h.state.setWorker w p'
      tried := h.tried ++ [(id, h.current w, nonce)] } id' o' =
      h.triedBy id' o' ++ if id' = id ∧ o' = h.current w then [nonce] else [] :=
    triedBy_append h id (h.current w) nonce
  refine ⟨?_, ?_, ?_, ?_⟩
  · intro id' o'
    rw [htriedBy]
    by_cases hsame : id' = id ∧ o' = h.current w
    · obtain ⟨rfl, rfl⟩ := hsame
      rw [if_pos ⟨rfl, rfl⟩, List.length_append, List.length_singleton, List.range_succ,
        List.map_append, ← hs.tried, hnonce']
      rfl
    · rw [if_neg hsame, List.append_nil]
      exact hs.tried id' o'
  · intro id' o' hle
    have hle' : h.state.nextOffset id' ≤ o' := hle
    have hother : ¬ (id' = id ∧ o' = h.current w) := by
      rintro ⟨rfl, rfl⟩
      omega
    rw [htriedBy, if_neg hother, List.append_nil]
    exact hs.untried id' o' hle'
  · intro w' q id' hq hqid
    rcases getElem?_setWorker hw hq with ⟨rfl, rfl⟩ | ⟨hne, hold⟩
    · rw [hp'] at hqid
      obtain rfl := Option.some.inj hqid
      refine ⟨hlt, ?_⟩
      rw [htriedBy, if_pos ⟨rfl, rfl⟩, List.length_append, List.length_singleton, trial, ← hnonce']
      exact hat
    · -- another thread at this cookie has another offset
      obtain ⟨hlt', hat'⟩ := hs.offsets w' q id' hold hqid
      have hother : ¬ (id' = id ∧ h.current w' = h.current w) := by
        rintro ⟨rfl, heq⟩
        exact hne (hs.apart w' w q _ id' hold hw hqid rfl heq)
      refine ⟨hlt', ?_⟩
      rw [htriedBy, if_neg hother, List.append_nil]
      exact hat'
  · intro w₁ w₂ p₁ p₂ id' hw₁ hw₂ hp₁ hp₂ hsame
    have hbefore : ∀ (w' : Nat) (q : Worker), (h.state.setWorker w p').workers[w']? = some q →
        q.cookie = some id' →
        ∃ q' : Worker, h.state.workers[w']? = some q' ∧ q'.cookie = some id' := by
      intro w' q hq hqid
      rcases getElem?_setWorker hw hq with ⟨rfl, rfl⟩ | ⟨-, hold⟩
      · rw [hp'] at hqid
        exact ⟨_, hw, hqid⟩
      · exact ⟨q, hold, hqid⟩
    obtain ⟨q₁, hq₁, hid₁⟩ := hbefore w₁ p₁ hw₁ hp₁
    obtain ⟨q₂, hq₂, hid₂⟩ := hbefore w₂ p₂ hw₂ hp₂
    exact hs.apart w₁ w₂ q₁ q₂ id' hq₁ hq₂ hid₁ hid₂ hsame

/-! ### What happens to the cookies -/

theorem nextOffset_of_some {id : Nat} {c : Cookie} (hc : s.cookies[id]? = some c) :
    s.nextOffset id = c.nextNonceOffset := by
  rw [State.nextOffset, hc]

theorem nextOffset_of_none {id : Nat} (hc : s.cookies[id]? = none) : s.nextOffset id = 0 := by
  rw [State.nextOffset, hc]

-- A change of a cookie that keeps the offset, and keeps a cookie done.
theorem nextOffset_setCookie {id : Nat} {f : Cookie → Cookie}
    (hf : ∀ c, (f c).nextNonceOffset = c.nextNonceOffset) (j : Nat) :
    (s.setCookie id f).nextOffset j = s.nextOffset j := by
  unfold State.nextOffset
  rw [getElem?_setCookie]
  cases s.cookies[j]? with
  | none => rfl
  | some c =>
    simp only [Option.map_some]
    split
    · exact hf c
    · rfl

theorem State.IsDone.setCookie {id j : Nat} {f : Cookie → Cookie}
    (hf : ∀ c : Cookie, c.done = true → (f c).done = true) (hdone : s.IsDone j) :
    (s.setCookie id f).IsDone j := by
  obtain ⟨c, hc, hc'⟩ := hdone
  refine ⟨if id = j then f c else c, ?_, ?_⟩
  · rw [getElem?_setCookie, hc, Option.map_some]
  · split
    · exact hf c hc'
    · exact hc'

theorem Cookie.afterTake_nextNonceOffset (c : Cookie) (n : Nat) :
    (c.afterTake n).nextNonceOffset = c.nextNonceOffset + 1 := by
  unfold Cookie.afterTake
  dsimp only
  split_ifs <;> rfl

theorem Cookie.afterTake_done (c : Cookie) (n : Nat) : (c.afterTake n).done = c.done := by
  unfold Cookie.afterTake
  dsimp only
  split_ifs <;> rfl

theorem getElem?_calculate {id : Nat} {c : Cookie} (hc : s.cookies[id]? = some c) (r : Request) :
    (calculate ssl s r).cookies[id]? = some c := by
  show (s.cookies ++ [Cookie.new ssl r])[id]? = some c
  rw [List.getElem?_append_left (List.getElem?_eq_some_iff.mp hc).1, hc]

-- A new cookie starts with the offset that a missing one has.
theorem nextOffset_calculate (ssl : OpenSSL) (s : State) (r : Request) (id : Nat) :
    (calculate ssl s r).nextOffset id = s.nextOffset id := by
  cases hc : s.cookies[id]? with
  | some c => rw [nextOffset_of_some (getElem?_calculate hc r), nextOffset_of_some hc]
  | none =>
    have hle := List.getElem?_eq_none_iff.mp hc
    have hget : (calculate ssl s r).cookies[id]? = [Cookie.new ssl r][id - s.cookies.length]? :=
      List.getElem?_append_right hle
    rw [nextOffset_of_none hc]
    cases hd : id - s.cookies.length with
    | zero =>
      rw [hd] at hget
      rw [nextOffset_of_some hget]
      rfl
    | succ k =>
      rw [hd] at hget
      exact nextOffset_of_none hget

theorem nextOffset_cancel {id : Nat} {c : Cookie} (hc : s.cookies[id]? = some c) (j : Nat) :
    (cancel s id c).nextOffset j = s.nextOffset j := by
  have hget := cancel_cookies hc j
  by_cases hj : j = id
  · subst hj
    rw [if_pos rfl] at hget
    rw [nextOffset_of_some hget, nextOffset_of_some hc, Cookie.afterCancel_nextNonceOffset]
  · rw [if_neg hj] at hget
    rw [State.nextOffset, hget]
    rfl

theorem Shared.calculate (hs : Shared n h) (r : Request) :
    Shared n { h with state := calculate ssl h.state r } := by
  refine hs.of_same rfl rfl rfl (nextOffset_calculate ssl h.state r) ?_
  rintro id ⟨c, hc, hdone⟩
  exact ⟨c, getElem?_calculate hc r, hdone⟩

theorem Shared.cancel {id : Nat} {c : Cookie} (hs : Shared n h)
    (hc : h.state.cookies[id]? = some c) (cancelled : List Nat) :
    Shared n { h with state := cancel h.state id c, cancelled } := by
  refine hs.of_same (cancel_workers h.state id c) rfl rfl (nextOffset_cancel hc) ?_
  rintro j ⟨c', hc', hdone⟩
  have hget := cancel_cookies hc j
  by_cases hj : j = id
  · rw [if_pos hj] at hget
    exact ⟨_, hget, rfl⟩
  · rw [if_neg hj] at hget
    exact ⟨c', by rw [← hc']; exact hget, hdone⟩

-- A change of a cookie that its thread makes before it moves on.
theorem Shared.setCookie {id : Nat} {f : Cookie → Cookie} (hs : Shared n h)
    (hnext : ∀ c, (f c).nextNonceOffset = c.nextNonceOffset)
    (hdone : ∀ c : Cookie, c.done = true → (f c).done = true) :
    Shared n { h with state := h.state.setCookie id f } :=
  hs.of_same rfl rfl rfl (fun j => nextOffset_setCookie hnext j) fun _ hd => hd.setCookie hdone

theorem Shared.idleCb {id : Nat} (hs : Shared n h) (c : Cookie) :
    Shared n { h with state := idleCb h.state id c } := by
  have hset : Shared n { h with state := h.state.setCookie id fun c =>
      { c with idleSource := false, held := false }.unref.unref } :=
    hs.setCookie (fun _ => rfl) fun _ hdone => hdone
  exact hset.of_same rfl rfl rfl (fun _ => rfl) fun _ hdone => hdone

theorem Shared.setSolution {w id nonce : Nat} (hh : Held n h) (hs : Shared n h)
    (hw : h.state.workers[w]? = some (.solved id nonce)) :
    Shared n { h with state :=
      (h.state.setCookie id fun c => c.setSolution nonce).setWorker w (.locking id nonce) } := by
  obtain ⟨c, hc, -⟩ := hh.cookie_of_worker hw rfl
  have hset : Shared n { h with state := h.state.setCookie id fun c => c.setSolution nonce } := by
    apply hs.setCookie
    · intro c
      unfold Cookie.setSolution
      split_ifs <;> rfl
    · intro c hdone
      rw [Cookie.setSolution, if_pos hdone]
      exact hdone
  apply hset.setWorker (p := .solved id nonce) hw
  intro j hj
  obtain rfl := Option.some.inj hj
  -- whoever stores a solution leaves the loop, because the cookie is done
  refine ⟨rfl, Or.inl ⟨c.setSolution nonce, getElem?_setCookie_self hc _, ?_⟩⟩
  unfold Cookie.setSolution
  split_ifs with hdone
  · exact hdone
  · rfl

theorem Shared.testLoop {w id nonce : Nat} (hs : Shared n h)
    (hw : h.state.workers[w]? = some (.locking id nonce)) :
    Shared n { h with state := testLoop h.state w id nonce } := by
  obtain ⟨-, hat⟩ := hs.offsets w _ id hw rfl
  unfold Pow.testLoop
  dsimp only
  split_ifs with hgo
  · apply hs.setWorker hw
    intro j hj
    obtain rfl := Option.some.inj hj
    refine ⟨rfl, ?_⟩
    rcases hat with ⟨c, hc, hdone⟩ | hnonce
    · rw [hc] at hgo
      simp [hdone] at hgo
    · exact hnonce
  · have hunref : Shared n { h with state := h.state.setCookie id Cookie.unref } :=
      hs.setCookie (fun _ => rfl) fun _ hdone => hdone
    exact hunref.setWorker (p := .locking id nonce) hw .waiting fun j hj => nomatch hj

theorem nextOffset_taken {id : Nat} {c : Cookie} (hc : s.cookies[id]? = some c) (j : Nat) :
    (s.taken id c).nextOffset j = s.nextOffset j + if j = id then 1 else 0 := by
  have hget := taken_cookies hc j
  by_cases hj : j = id
  · subst hj
    rw [if_pos rfl] at hget ⊢
    rw [nextOffset_of_some hget, nextOffset_of_some hc, Cookie.afterTake_nextNonceOffset]
  · rw [if_neg hj] at hget ⊢
    rw [State.nextOffset, hget]
    rfl

theorem State.IsDone.taken {id j : Nat} {c : Cookie} (hc : s.cookies[id]? = some c)
    (hdone : s.IsDone j) : (s.taken id c).IsDone j := by
  obtain ⟨c', hc', hd⟩ := hdone
  have hget := taken_cookies hc j
  by_cases hj : j = id
  · subst hj
    obtain rfl := Option.some.inj (hc.symm.trans hc')
    rw [if_pos rfl] at hget
    exact ⟨_, hget, by rw [Cookie.afterTake_done]; exact hd⟩
  · rw [if_neg hj] at hget
    exact ⟨c', by rw [hget, hc'], hd⟩

/-- A thread takes a cookie and gets an offset that nobody had. -/
theorem Shared.taken {w id : Nat} {c : Cookie} (hs : Shared n h)
    (hw : h.state.workers[w]? = some .waiting) (hc : h.state.cookies[id]? = some c)
    (handed : List (Nat × Nat)) :
    Shared n { h with
      state := (h.state.taken id c).setWorker w (.locking id c.nextNonceOffset)
      handed
      current := Function.update h.current w c.nextNonceOffset } := by
  have hoffset : h.state.nextOffset id = c.nextNonceOffset := nextOffset_of_some hc
  have hnext := nextOffset_taken hc
  have hwaiting := taken_waiting hw id c
  refine ⟨hs.tried, ?_, ?_, ?_⟩
  · intro j o hle
    have hle' : (h.state.taken id c).nextOffset j ≤ o := hle
    rw [hnext] at hle'
    exact hs.untried j o (by omega)
  · intro w' q j hq hqid
    rcases getElem?_setWorker hwaiting hq with ⟨rfl, rfl⟩ | ⟨hne, hold⟩
    · -- nothing was tried yet with the offset the thread got
      have hfresh : h.triedBy id c.nextNonceOffset = [] := hs.untried id _ (by rw [hoffset])
      obtain rfl := Option.some.inj hqid
      simp only [Function.update_self]
      refine ⟨?_, Or.inr ?_⟩
      · show c.nextNonceOffset < (h.state.taken id c).nextOffset id
        rw [hnext, if_pos rfl, hoffset]
        omega
      · show c.nextNonceOffset = trial n c.nextNonceOffset
          (h.triedBy id c.nextNonceOffset).length
        rw [hfresh]
        rfl
    · rw [taken_workers] at hold
      obtain ⟨hlt, hat⟩ := hs.offsets w' q j hold hqid
      simp only [Function.update_of_ne hne]
      refine ⟨?_, hat.mono fun _ hdone => hdone.taken hc⟩
      show h.current w' < (h.state.taken id c).nextOffset j
      rw [hnext]
      omega
  · intro w₁ w₂ p₁ p₂ j hw₁ hw₂ hp₁ hp₂ hsame
    simp only at hsame
    -- the new offset is above those of the threads that are at the cookie
    have hnew : ∀ (w' : Nat) (q : Worker), w' ≠ w → h.state.workers[w']? = some q →
        q.cookie = some id → h.current w' ≠ c.nextNonceOffset := by
      intro w' q hne hq hqid
      have hlt := (hs.offsets w' q id hq hqid).1
      omega
    rcases getElem?_setWorker hwaiting hw₁ with ⟨rfl, rfl⟩ | ⟨hne₁, hold₁⟩
    · rcases getElem?_setWorker hwaiting hw₂ with ⟨rfl, rfl⟩ | ⟨hne₂, hold₂⟩
      · rfl
      · obtain rfl := Option.some.inj hp₁
        rw [Function.update_self, Function.update_of_ne hne₂] at hsame
        rw [taken_workers] at hold₂
        exact absurd hsame.symm (hnew w₂ p₂ hne₂ hold₂ hp₂)
    · rcases getElem?_setWorker hwaiting hw₂ with ⟨rfl, rfl⟩ | ⟨hne₂, hold₂⟩
      · obtain rfl := Option.some.inj hp₂
        rw [Function.update_self, Function.update_of_ne hne₁] at hsame
        rw [taken_workers] at hold₁
        exact absurd hsame (hnew w₁ p₁ hne₁ hold₁ hp₁)
      · rw [Function.update_of_ne hne₁, Function.update_of_ne hne₂] at hsame
        rw [taken_workers] at hold₁ hold₂
        exact hs.apart w₁ w₂ p₁ p₂ j hold₁ hold₂ hp₁ hp₂ hsame

theorem Shared.take {w id : Nat} {c : Cookie} (hs : Shared n h)
    (hw : h.state.workers[w]? = some .waiting) (hc : h.state.cookies[id]? = some c)
    (handed : List (Nat × Nat)) :
    Shared n { h with
      state := take h.state w id c
      handed
      current := Function.update h.current w c.nextNonceOffset } := by
  rw [take_eq]
  exact (hs.taken hw hc handed).testLoop (taken_locking hw id c)

theorem Shared.step (hh : Held n h) (hs : Shared n h) (hmove : Move ssl h h') : Shared n h' := by
  cases hmove with
  | calculate r => exact hs.calculate r
  | cancel hc hheld => exact hs.cancel hc _
  | idle hc hidle => exact hs.idleCb _
  | quit => exact hs.of_same rfl rfl rfl (fun _ => rfl) fun _ hdone => hdone
  | exit hw => exact hs.setWorker hw .exited fun _ hid => nomatch hid
  | take hw hqueue hc => exact hs.take hw hc _
  | @solve w id nonce i hw => exact hs.tryNonce hw (.solved id nonce) rfl trivial
  | @next w id nonce i hw =>
    rw [hh.threads]
    exact hs.tryNonce hw (.searching id ((nonce + n) % 2 ^ 64) (i + 1)) rfl rfl
  | @pause w id nonce i hw =>
    apply hs.setWorker hw (.locking id nonce)
    intro j hj
    obtain rfl := Option.some.inj hj
    exact ⟨rfl, Or.inr (hs.offsets w _ id hw rfl).2⟩
  | store hw => exact hs.setSolution hh hw
  | test hw => exact hs.testLoop hw

theorem shared_init (n : Nat) : Shared n (History.init n) where
  tried _ _ := rfl
  untried _ _ _ := rfl
  offsets w p id hw hp := by
    have hwaiting : p = .waiting := List.eq_of_mem_replicate (List.mem_of_getElem? hw)
    rw [hwaiting] at hp
    cases hp
  apart w w' p p' id hw hw' hp hp' hsame := by
    have hwaiting : p = .waiting := List.eq_of_mem_replicate (List.mem_of_getElem? hw)
    rw [hwaiting] at hp
    cases hp

end Step

/-! ## 2. Whole runs -/

/-- The events up to the end of `ntb_pow_free`. -/
def Event.watched : Event → Bool
  | .free => false
  | _ => true

/-- What the threads and the main loop owe to the cookies, with `n` threads. -/
structure Sound (n : Nat) (h : History) : Prop where
  /-- A cookie is queued while there are offsets left for it and it was not cancelled. -/
  queued : h.state.queue.Nodup ∧ ∀ id, id ∈ h.state.queue ↔
    id < h.state.cookies.length ∧ (h.offsetsOf id).length < n ∧ id ∉ h.cancelled
  /-- The count of a cookie is the number of its holders, and the last of them frees it. -/
  counted : ∀ id c, h.state.cookies[id]? = some c →
    c.refCount = (h.view id).holders c ∧ c.frees = if (h.view id).holders c = 0 then 1 else 0
  /-- A callback is invoked at most once, and not for a cookie that is cancelled. -/
  invoked : ∀ id, (h.state.delivered.filter (·.1 = id)).length ≤ 1 ∧
    (id ∈ h.cancelled → h.state.delivered.filter (·.1 = id) = [])
  /-- The offsets of a cookie are different numbers below `n`. -/
  offsets : ∀ id, (h.offsetsOf id).Nodup ∧ ∀ o ∈ h.offsetsOf id, o < n
  /-- The nonces tried with an offset start at it and go on in steps of `n`; nothing is tried with
  an offset that was not handed out. -/
  steps : ∀ id o k nonce, (h.triedBy id o)[k]? = some nonce →
    o ∈ h.offsetsOf id ∧ nonce = trial n o k ∧ (o + k * n < 2 ^ 64 → nonce = o + k * n)
  /-- Below the wrap-around no nonce is tried for two offsets. -/
  disjoint : ∀ id o k nonce o' k' nonce', (h.triedBy id o)[k]? = some nonce →
    (h.triedBy id o')[k']? = some nonce' → o + k * n < 2 ^ 64 → o' + k' * n < 2 ^ 64 →
    (o, k) ≠ (o', k') → nonce ≠ nonce'
  /-- Every 64-bit number is one of the nonces of some offset. -/
  covered : ∀ nonce < 2 ^ 64, ∃ o < n, ∃ k, o + k * n = nonce ∧ trial n o k = nonce

section Sound

variable {ssl : OpenSSL} {n : Nat} {h : History}

-- The offsets of a cookie were handed out in their order.
theorem Held.offsetsOf_eq (hh : Held n h) (id : Nat) :
    h.offsetsOf id = List.range (h.state.nextOffset id) := by
  cases hc : h.state.cookies[id]? with
  | none =>
    rw [State.nextOffset, hc]
    exact congrArg View.offsets (hh.cookies.unused hc)
  | some c =>
    rw [nextOffset_of_some hc]
    exact (hh.fits hc).offsets

theorem Held.queued_iff (hh : Held n h) (id : Nat) : id ∈ h.state.queue ↔
    id < h.state.cookies.length ∧ (h.offsetsOf id).length < n ∧ id ∉ h.cancelled := by
  cases hc : h.state.cookies[id]? with
  | none =>
    have hnone : h.view id = View.none := hh.cookies.unused hc
    have hout : id ∉ h.state.queue := by
      have hqueued := congrArg View.queued hnone
      simpa [History.view, View.none] using hqueued
    have hlen := List.getElem?_eq_none_iff.mp hc
    exact ⟨fun hin => absurd hin hout, fun hin => by omega⟩
  | some c =>
    have hqueued := (hh.fits hc).queued
    have hlen := (List.getElem?_eq_some_iff.mp hc).1
    rw [hh.offsetsOf_eq, nextOffset_of_some hc, List.length_range]
    simpa [History.view, hlen] using hqueued

theorem Held.invoked (hh : Held n h) (id : Nat) :
    (h.state.delivered.filter (·.1 = id)).length ≤ 1 ∧
      (id ∈ h.cancelled → h.state.delivered.filter (·.1 = id) = []) := by
  have hlength : (h.state.delivered.filter (·.1 = id)).length = (h.view id).deliveries := rfl
  rw [← List.length_eq_zero_iff, hlength]
  cases hc : h.state.cookies[id]? with
  | none =>
    rw [hh.cookies.unused hc]
    exact ⟨Nat.zero_le _, fun _ => rfl⟩
  | some c =>
    rw [(hh.fits hc).deliveries]
    refine ⟨by split <;> omega, fun hcancelled => if_pos (Or.inr ?_)⟩
    simpa [History.view] using hcancelled

theorem Shared.getElem?_triedBy (hs : Shared n h) {id o k nonce : Nat}
    (hk : (h.triedBy id o)[k]? = some nonce) : nonce = trial n o k := by
  have hlt := (List.getElem?_eq_some_iff.mp hk).1
  rw [hs.tried, List.getElem?_map, List.getElem?_range hlt] at hk
  exact (Option.some.inj hk).symm

-- An offset with which something was tried was handed out.
theorem Shared.mem_offsetsOf (hh : Held n h) (hs : Shared n h) {id o k nonce : Nat}
    (hk : (h.triedBy id o)[k]? = some nonce) : o ∈ h.offsetsOf id := by
  rw [hh.offsetsOf_eq, List.mem_range]
  by_contra hle
  rw [hs.untried id o (by omega)] at hk
  cases hk

-- Two numbers below `n` and two factors of `n` that give one sum are the same.
theorem offset_unique {o o' k k' : Nat} (ho : o < n) (ho' : o' < n)
    (heq : o + k * n = o' + k' * n) : (o, k) = (o', k') := by
  have hmod : o = o' := by
    have hboth := congrArg (· % n) heq
    simpa [Nat.add_mul_mod_self_right, Nat.mod_eq_of_lt ho, Nat.mod_eq_of_lt ho'] using hboth
  subst hmod
  have hmul : k * n = k' * n := by omega
  rw [Nat.eq_of_mul_eq_mul_right (by omega) hmul]

theorem sound (hn : 0 < n) (hh : Held n h) (hs : Shared n h) : Sound n h := by
  have hbelow : ∀ id, ∀ o ∈ h.offsetsOf id, o < n := by
    intro id o ho
    rw [hh.offsetsOf_eq, List.mem_range] at ho
    cases hc : h.state.cookies[id]? with
    | none =>
      rw [State.nextOffset, hc] at ho
      cases ho
    | some c =>
      rw [nextOffset_of_some hc] at ho
      exact lt_of_lt_of_le ho (hh.fits hc).bounded
  refine ⟨⟨hh.queue, hh.queued_iff⟩, ?_, hh.invoked, ?_, ?_, ?_, ?_⟩
  · intro id c hc
    exact ⟨(hh.fits hc).refs.refCount, (hh.fits hc).refs.frees⟩
  · intro id
    refine ⟨?_, hbelow id⟩
    rw [hh.offsetsOf_eq]
    exact List.nodup_range
  · intro id o k nonce hk
    have hnonce := hs.getElem?_triedBy hk
    exact ⟨hs.mem_offsetsOf hh hk, hnonce, fun hlt => by rw [hnonce, trial_eq hlt]⟩
  · intro id o k nonce o' k' nonce' hk hk' hlt hlt' hne heq
    apply hne
    apply offset_unique (hbelow id o (hs.mem_offsetsOf hh hk))
      (hbelow id o' (hs.mem_offsetsOf hh hk'))
    rw [← trial_eq hlt, ← trial_eq hlt', ← hs.getElem?_triedBy hk, ← hs.getElem?_triedBy hk', heq]
  · intro nonce hlt
    have hsum : nonce % n + nonce / n * n = nonce := Nat.mod_add_div' nonce n
    exact ⟨nonce % n, Nat.mod_lt _ hn, nonce / n, hsum, by rw [trial_eq (by omega), hsum]⟩

/-- In every run with at least one thread, whatever is asked for, cancelled, searched and delivered
in whatever order, the cookies are accounted for and the threads share the nonces. -/
theorem cookies_sound (ssl : OpenSSL) (nThreads : Nat) (hn : 0 < nThreads) (events : List Event) :
    Sound nThreads (run (History.step ssl) (History.init nThreads) events) := by
  have hinv : Held nThreads (run (History.step ssl) (History.init nThreads) events) ∧
      Shared nThreads (run (History.step ssl) (History.init nThreads) events) := by
    apply invariant (P := fun h => Held nThreads h ∧ Shared nThreads h)
    · rintro h e h' ⟨hh, hs⟩ hstep
      have hmove := move_of_step hstep
      exact ⟨hh.step hn hmove, hs.step hh hmove⟩
    · exact ⟨held_init nThreads, shared_init nThreads⟩
  exact sound hn hinv.1 hinv.2

/-- A request for an object of nothing but its nonce. -/
def emptyObject : Request where
  data := List.replicate 8 0
  start := 0
  size := 8
  difficulty := .minimum
  inside := by decide
  nonceFits := by decide
  bounded := by decide

/-- Two threads take a cookie and the first tries a nonce; then the cookie is cancelled. -/
def cancelledSearch : List Event :=
  [.calculate emptyObject, .worker 0, .worker 1, .worker 0, .cancel 0]

theorem cancelledSearch_sound :
    let h := run (History.step OpenSSL.additive) (History.init 2) cancelledSearch
    h.handed = [(0, 0), (0, 1)] ∧ h.cancelled = [0] ∧ h.tried = [(0, 0, 0)] ∧ Sound 2 h := by
  intro h
  refine ⟨by decide +kernel, by decide +kernel, by decide +kernel, ?_⟩
  exact cookies_sound OpenSSL.additive 2 (by decide) cancelledSearch

end Sound

end Notbit.Pow
