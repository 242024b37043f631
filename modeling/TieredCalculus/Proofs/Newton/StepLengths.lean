import TieredCalculus.Proofs.Newton.Descent
import TieredCalculus.Proofs.Newton.EntrySteps
import TieredCalculus.Proofs.Newton.Held

/-! # Step lengths of a search

A search cuts the step lengths of all insufficient entries at once and goes on until every
entry is sufficient or the trials run out. Where the residual of an entry is a function of that
entry alone, a sufficient entry is judged by the same trial again and keeps its step length.
So every entry ends after as many cuts as its own first sufficient trial takes, or after the
last trial that it is allowed, and a search of the entry by itself ends there as well.
-/

namespace TieredCalculus

variable {σ α : Type}

section Entries

variable [Zero α] {n : Nat}

/-- The unbatched vector is the entry of a tensor. -/
structure Tensor.IsEntry (t₁ t : Tensor α) (n : Nat) (b : Index) : Prop where
  batch_eq : t₁.batch = []
  packed : t₁.Packed n
  run_eq : t₁.runAt n [] = t.runAt n b

/-- At the unbatched vector `v` the residual of the system is `f v`, whichever state it is
in. -/
def NonlinearSystem.Follows (sys : NonlinearSystem σ α) (f : Vector α n → Vector α n)
    (v : Vector α n) : Prop :=
  ∀ {t : Tensor α} (st : σ), t.batch = [] → t.Packed n → t.runAt n [] = v →
    ∃ st₁ r st₂, sys.setSolution t st = .ok () st₁ ∧ sys.residual st₁ = .ok r st₂ ∧
      r.batch = [] ∧ r.Packed n ∧ r.runAt n [] = f v

def NonlinearSystem.EntryLaw.recorded {sys : NonlinearSystem σ α} (law : sys.EntryLaw n) :
    sys.recorded.EntryLaw n where
  law := law.law
  packed := by
    rintro u r ⟨s, w⟩ ⟨s₁, w₁⟩ ⟨s₂, w₂⟩ hu hset hr
    have hset' := (NonlinearSystem.recorded_setSolution_eq_ok.1 hset).1
    exact law.packed hu hset' (Update.onFirst_eq_ok.1 hr).1
  run_eq := by
    rintro u r ⟨s, w⟩ ⟨s₁, w₁⟩ ⟨s₂, w₂⟩ hu hset hr
    have hset' := (NonlinearSystem.recorded_setSolution_eq_ok.1 hset).1
    intro batch k hub hrb hk
    exact law.run_eq hu hset' (Update.onFirst_eq_ok.1 hr).1 hub hrb hk

end Entries

namespace LineSearch

/-! ## Cuts of one entry -/

section Entry

variable [Zero α] [One α] [Add α] [Sub α] [Mul α] [Div α] [LE α] [DecidableLE α] {n : Nat}

omit [Zero α] [Add α] [Sub α] [Mul α] [LE α] [DecidableLE α] in
/-- The step length after `k` cuts. -/
def stepLength (s : LineSearch α) : Nat → α
  | 0 => 1
  | k + 1 => s.stepLength k / s.cutback

/-- Whether the trial after `k` cuts is sufficient, for an entry with residual `f`. -/
def meets (s : LineSearch α) (f : Vector α n → Vector α n) (x : EntryStart α n) (k : Nat) : Bool :=
  s.sufficient x (s.stepLength k) (f (x.trial (s.stepLength k)))

/-- The number of cuts up to the first sufficient trial, or up to the last trial where none is
sufficient. -/
structure StopsAfter (s : LineSearch α) (f : Vector α n → Vector α n) (x : EntryStart α n)
    (k : Nat) : Prop where
  lt : k < s.maxTrials
  before : ∀ i < k, s.meets f x i = false
  ends : s.meets f x k = true ∨ k + 1 = s.maxTrials

/-- An entry after `c` cuts, with one trial to make now and `retries` after it. It has been cut
at every trial so far, unless its trial is sufficient. -/
structure Searching (s : LineSearch α) (f : Vector α n → Vector α n) (x : EntryStart α n)
    (retries c : Nat) : Prop where
  before : ∀ i < c, s.meets f x i = false
  pending : s.meets f x c = true ∨ c + retries + 1 = s.maxTrials
  lt : c + retries < s.maxTrials

variable {s : LineSearch α} {f : Vector α n → Vector α n} {x : EntryStart α n}

theorem searching_start (hmax : 0 < s.maxTrials) : s.Searching f x (s.maxTrials - 1) 0 where
  before := fun i hi => by omega
  pending := .inr (by omega)
  lt := by omega

theorem Searching.stops_of_meets {retries c : Nat} (h : s.Searching f x retries c)
    (hm : s.meets f x c = true) : s.StopsAfter f x c where
  lt := by
    have := h.lt
    omega
  before := h.before
  ends := .inl hm

theorem Searching.stops_of_last {c : Nat} (h : s.Searching f x 0 c) : s.StopsAfter f x c where
  lt := h.lt
  before := h.before
  ends := h.pending

/-- After a trial an entry keeps its step length where the trial was sufficient, and is cut
elsewhere. -/
theorem Searching.next {retries c : Nat} (h : s.Searching f x (retries + 1) c) :
    s.Searching f x retries (if s.meets f x c then c else c + 1) := by
  have hlt := h.lt
  cases hm : s.meets f x c with
  | true => exact ⟨h.before, .inl hm, by simp; omega⟩
  | false =>
      have hlast := h.pending.resolve_left (by simp [hm])
      refine ⟨fun i hi => ?_, .inr (by simp; omega), by simp; omega⟩
      rcases Nat.lt_succ_iff_lt_or_eq.1 hi with hlt | rfl
      · exact h.before i hlt
      · exact hm

namespace StopsAfter

variable {k c : Nat}

theorem eq_of_meets (hk : s.StopsAfter f x k) (hc : c ≤ k) (hm : s.meets f x c = true) :
    c = k := by
  refine hc.antisymm (Nat.not_lt.1 fun hlt => ?_)
  rw [hk.before c hlt] at hm
  cases hm

theorem eq_of_last (hk : s.StopsAfter f x k) (hc : c ≤ k) (hlast : c + 1 = s.maxTrials) :
    c = k := by
  have := hk.lt
  omega

theorem lt_of_not_meets (hk : s.StopsAfter f x k) (hc : c ≤ k) (hm : s.meets f x c = false)
    (hlast : c + 1 < s.maxTrials) : c < k := by
  refine hc.lt_of_ne ?_
  rintro rfl
  rcases hk.ends with hmeets | hend
  · rw [hm] at hmeets
    cases hmeets
  · omega

end StopsAfter

end Entry

/-! ## The trials of a batch -/

section Batch

variable [Zero α] [One α] [Add α] [Sub α] [Mul α] [Div α] [LE α] [DecidableLE α] {n : Nat}
  {batch : Shape} {s : LineSearch α} {sys : NonlinearSystem σ α} {x : Nat → EntryStart α n}
  {f : Nat → Vector α n → Vector α n}

omit [Div α] in
theorem attempt_eq_ok (law : sys.EntryLaw n) (hn : 0 < n)
    (hf : ∀ {b : Index}, Shape.InBounds batch b → law.law batch b = f (batch.offset b))
    {a : Nat → α} {next : Tensor α → List Bool → Update (SolveError α) σ (Tensor α × List α)}
    {q : Tensor α × List α} {st st' : σ}
    (h : s.attempt (startOf batch batch.numel x) sys ((List.range batch.numel).map a) next st =
      .ok q st') :
    ∃ t s₁ r s₂, Collects batch (fun b =>
        .ok ((x (batch.offset b)).trial (a (batch.offset b)))) t ∧
      sys.setSolution t st = .ok () s₁ ∧ sys.residual s₁ = .ok r s₂ ∧
      ((∀ k < batch.numel, s.sufficient (x k) (a k) (f k ((x k).trial (a k))) = true) ∧
          q = (t, (List.range batch.numel).map a) ∧ st' = s₂ ∨
        next t ((List.range batch.numel).map fun k =>
          s.sufficient (x k) (a k) (f k ((x k).trial (a k)))) s₂ = .ok q st') := by
  have hm : batch.numel = if n = 0 then 0 else batch.numel := (if_neg hn.ne').symm
  obtain ⟨t, ht, hc⟩ := trial_startOf (x := x) hm a
  obtain ⟨t', st₀, hvalues, h₁⟩ := Update.bind_eq_ok.1 h
  obtain ⟨ht', rfl⟩ := SolveError.lift_eq_ok.1 hvalues
  cases ht.symm.trans ht'
  obtain ⟨_, s₁, hset, h₂⟩ := Update.bind_eq_ok.1 h₁
  obtain ⟨r, s₂, hres, h₃⟩ := Update.bind_eq_ok.1 h₂
  obtain ⟨r', s₃, hexpand, h₄⟩ := Update.bind_eq_ok.1 h₃
  obtain ⟨hr', rfl⟩ := SolveError.lift_eq_ok.1 hexpand
  change r.expandBatch batch = .ok r' at hr'
  obtain ⟨hexp, hrb', hrp', hrun⟩ := (law.packed hc.packed hset hres).expandBatch hr'
  have hself := Shape.expandsTo_refl batch
  have hown : ∀ k < batch.numel, r'.vectorRun n k = f k ((x k).trial (a k)) := by
    intro k hk
    obtain ⟨b, hb, rfl⟩ := Shape.exists_offset_eq hk
    have hentry := law.run_eq hc.packed hset hres (hc.batch_eq ▸ hself) hexp hb
    rw [← Except.ok.inj (hc.run_eq hb), hf hb] at hentry
    rw [← hentry, ← hrun hself hb, Tensor.runAt_of_inBounds r' n (hrb' ▸ hb), hrb']
  have hverdicts : s.verdicts (startOf batch batch.numel x) ((List.range batch.numel).map a) r' =
      (List.range batch.numel).map fun k =>
        s.sufficient (x k) (a k) (f k ((x k).trial (a k))) := by
    rw [verdicts_startOf s hm a hrb' hrp']
    apply List.map_congr_left
    intro k hk
    rw [hown k (List.mem_range.1 hk)]
  rw [hverdicts] at h₄
  refine ⟨t, s₁, r, s₃, hc, hset, hres, ?_⟩
  split at h₄
  · next hall =>
    cases h₄
    refine .inl ⟨fun k hk => ?_, rfl, rfl⟩
    rw [List.all_map, List.all_eq_true] at hall
    exact hall k (List.mem_range.2 hk)
  · exact .inr h₄

theorem cut_meets (s : LineSearch α) {m : Nat} (f : Nat → Vector α n → Vector α n)
    (x : Nat → EntryStart α n) (c : Nat → Nat) :
    s.cut ((List.range m).map fun k => s.stepLength (c k))
        ((List.range m).map fun k => s.meets (f k) (x k) (c k)) =
      (List.range m).map fun k =>
        s.stepLength (if s.meets (f k) (x k) (c k) then c k else c k + 1) := by
  rw [cut_range]
  apply List.map_congr_left
  intro k _
  cases s.meets (f k) (x k) (c k) <;> rfl

/-- The trials of a batch end each entry after the cuts that it takes by itself, and leave the
system evaluated at what they return. -/
theorem trials_eq_ok (law : sys.EntryLaw n) (hn : 0 < n)
    (hf : ∀ {b : Index}, Shape.InBounds batch b → law.law batch b = f (batch.offset b))
    {retries : Nat} {c : Nat → Nat}
    (hc : ∀ k < batch.numel, s.Searching (f k) (x k) retries (c k)) {q : Tensor α × List α}
    {st st' : σ}
    (h : s.trials sys (startOf batch batch.numel x) retries
      ((List.range batch.numel).map fun k => s.stepLength (c k)) st = .ok q st') :
    ∃ c' : Nat → Nat, (∀ k < batch.numel, s.StopsAfter (f k) (x k) (c' k)) ∧
      q.2 = (List.range batch.numel).map (fun k => s.stepLength (c' k)) ∧
      Collects batch (fun b =>
        .ok ((x (batch.offset b)).trial (s.stepLength (c' (batch.offset b))))) q.1 ∧
      ∃ s₀ s₁ r, sys.setSolution q.1 s₀ = .ok () s₁ ∧ sys.residual s₁ = .ok r st' := by
  induction retries generalizing c st with
  | zero =>
      rw [trials_zero] at h
      obtain ⟨t, s₁, r, s₂, ht, hset, hres, hend⟩ := attempt_eq_ok law hn hf h
      refine ⟨c, fun k hk => (hc k hk).stops_of_last, ?_⟩
      rcases hend with ⟨-, rfl, rfl⟩ | hend
      · exact ⟨rfl, ht, st, s₁, r, hset, hres⟩
      · cases hend
        exact ⟨rfl, ht, st, s₁, r, hset, hres⟩
  | succ retries ih =>
      rw [trials_succ] at h
      obtain ⟨t, s₁, r, s₂, ht, hset, hres, hend⟩ := attempt_eq_ok law hn hf h
      rcases hend with ⟨hall, rfl, rfl⟩ | hend
      · exact ⟨c, fun k hk => (hc k hk).stops_of_meets (hall k hk), rfl, ht, st, s₁, r, hset, hres⟩
      · have hcut := s.cut_meets (m := batch.numel) f x c
        unfold meets at hcut
        rw [hcut] at hend
        exact ih (fun k hk => (hc k hk).next) hend

end Batch

/-! ## An entry by itself -/

section Alone

variable [Zero α] {n : Nat}

variable [One α] [Add α] [Sub α] [Mul α] [Div α] [LE α] [DecidableLE α] {s : LineSearch α}
  {sys : NonlinearSystem σ α} {x : Nat → EntryStart α n}

omit [Div α] in
theorem attempt_alone {a : α} {f : Vector α n → Vector α n} (hn : 0 < n)
    (hf : sys.Follows f ((x 0).trial a))
    (next : Tensor α → List Bool → Update (SolveError α) σ (Tensor α × List α)) (st : σ) :
    ∃ t st', t.batch = [] ∧ t.Packed n ∧ t.runAt n [] = (x 0).trial a ∧
      s.attempt (startOf [] 1 x) sys [a] next st =
        if s.sufficient (x 0) a (f ((x 0).trial a)) then .ok (t, [a]) st'
        else next t [false] st' := by
  have hm : 1 = if n = 0 then 0 else Shape.numel [] := (if_neg hn.ne').symm
  have hin : Shape.InBounds [] [] := trivial
  obtain ⟨t, ht, hc⟩ := trial_startOf (x := x) hm fun _ => a
  have hrun : t.runAt n [] = (x 0).trial a := (Except.ok.inj (hc.run_eq hin)).symm
  obtain ⟨s₁, r, s₂, hset, hres, hrb, hrp, hr⟩ := hf st hc.batch_eq hc.packed hrun
  obtain ⟨r', hr'⟩ := Tensor.expandBatch_of_batch_eq hrb
  obtain ⟨-, hrb', hrp', hrun'⟩ := hrp.expandBatch hr'
  have hown : r'.vectorRun n 0 = f ((x 0).trial a) := by
    rw [← hr, ← hrun' (Shape.expandsTo_refl []) hin,
      Tensor.runAt_of_inBounds r' n (hrb' ▸ hin), hrb']
    rfl
  have hverdicts : s.verdicts (startOf [] 1 x) [a] r' =
      [s.sufficient (x 0) a (f ((x 0).trial a))] := by
    rw [← hown]
    exact verdicts_startOf s hm (fun _ => a) hrb' hrp'
  refine ⟨t, s₂, hc.batch_eq, hc.packed, hrun, ?_⟩
  unfold attempt
  change (liftM (Tensor.ofValues [] [] [n]
    ((startOf [] 1 x).trialValues ((List.range 1).map fun _ => a)).toArray) >>= _ :
      Update (SolveError α) σ _) st = _
  rw [ht]
  change (sys.setSolution t >>= _) st = _
  rw [Update.bind_apply, hset]
  change (sys.residual >>= _) s₁ = _
  rw [Update.bind_apply, hres]
  change (liftM (r.expandBatch []) >>= _ : Update (SolveError α) σ _) s₂ = _
  rw [hr']
  change (if (s.verdicts (startOf [] 1 x) [a] r').all id then _
    else next t (s.verdicts (startOf [] 1 x) [a] r') : Update (SolveError α) σ _) s₂ = _
  rw [hverdicts]
  cases s.sufficient (x 0) a (f ((x 0).trial a)) <;> rfl

theorem trials_alone {f : Vector α n → Vector α n} {k : Nat} (hn : 0 < n)
    (hk : s.StopsAfter f (x 0) k)
    (hf : ∀ i ≤ k, sys.Follows f ((x 0).trial (s.stepLength i)))
    {retries c : Nat} (hc : c ≤ k) (hr : c + retries + 1 = s.maxTrials) (st : σ) :
    ∃ t st', t.batch = [] ∧ t.Packed n ∧ t.runAt n [] = (x 0).trial (s.stepLength k) ∧
      s.trials sys (startOf [] 1 x) retries [s.stepLength c] st =
        .ok (t, [s.stepLength k]) st' := by
  induction retries generalizing c st with
  | zero =>
      obtain rfl := hk.eq_of_last hc hr
      obtain ⟨t, st', htb, htp, hrun, h⟩ := attempt_alone (s := s) hn (hf c le_rfl)
        (fun trial _ => pure (trial, [s.stepLength c])) st
      refine ⟨t, st', htb, htp, hrun, ?_⟩
      rw [trials_zero, h]
      split <;> rfl
  | succ retries ih =>
      obtain ⟨t, st', htb, htp, hrun, h⟩ := attempt_alone (s := s) hn (hf c hc)
        (fun _ verdicts => s.trials sys (startOf [] 1 x) retries
          (s.cut [s.stepLength c] verdicts)) st
      rw [trials_succ, h]
      cases hm : s.meets f (x 0) c with
      | true =>
          obtain rfl := hk.eq_of_meets hc hm
          exact ⟨t, st', htb, htp, hrun, if_pos hm⟩
      | false =>
          have hlt := hk.lt_of_not_meets hc hm (by omega)
          have hsufficient : s.sufficient (x 0) (s.stepLength c)
              (f ((x 0).trial (s.stepLength c))) = false := hm
          rw [hsufficient]
          exact ih hlt (by omega) st'

end Alone

/-! ## The search -/

section Search

variable [Zero α] [One α] [Add α] [Sub α] [Mul α] [Div α] [LE α] [DecidableLE α] {n : Nat}
  {s : LineSearch α} {sys : NonlinearSystem σ α}

theorem search_alone {ρ : Type} {alone : NonlinearSystem ρ α} {f : Vector α n → Vector α n}
    {k : Nat} {u r d u₁ r₁ d₁ : Tensor α} {b : Index} (hn : 0 < n) (hu : u₁.IsEntry u n b)
    (hr : r₁.IsEntry r n b) (hd : d₁.IsEntry d n b)
    (hk : s.StopsAfter f (.of (u.runAt n b) (r.runAt n b) (d.runAt n b)) k)
    (hf : ∀ i ≤ k, alone.Follows f (EntryStart.trial
      (.of (u.runAt n b) (r.runAt n b) (d.runAt n b)) (s.stepLength i))) (w : ρ) :
    ∃ t w', t.batch = [] ∧ t.Packed n ∧
      t.runAt n [] = EntryStart.trial (.of (u.runAt n b) (r.runAt n b) (d.runAt n b))
        (s.stepLength k) ∧
      s.search alone u₁ r₁ d₁ w = .ok (t, [s.stepLength k]) w' := by
  have hbatch : Shape.broadcastAll [u₁.batch, r₁.batch, d₁.batch] = .ok [] := by
    rw [hu.batch_eq, hr.batch_eq, hd.batch_eq]
    rfl
  obtain ⟨x, hx, hsearch⟩ := s.search_eq_trials alone hbatch hu.packed hr.packed hd.packed
  have hstart : x 0 = .of (u.runAt n b) (r.runAt n b) (d.runAt n b) := by
    rw [← hu.run_eq, ← hr.run_eq, ← hd.run_eq]
    exact hx (b := []) trivial
  rw [hsearch, if_neg hn.ne']
  rw [← hstart] at hk hf ⊢
  have hlt := hk.lt
  exact trials_alone hn hk hf (Nat.zero_le k) (by omega) w

theorem search_stops (law : sys.EntryLaw n) (hmax : 0 < s.maxTrials) (hn : 0 < n)
    {u r d trial : Tensor α} {lengths : List α} {st st' : σ} (hu : u.Packed n) (hr : r.Packed n)
    (hd : d.Packed n) (h : s.search sys u r d st = .ok (trial, lengths) st') :
    ∃ batch, Shape.broadcastAll [u.batch, r.batch, d.batch] = .ok batch ∧
      trial.batch = batch ∧ trial.Packed n ∧ lengths.length = batch.numel ∧
      s.search sys.recorded u r d (st, none) = .ok (trial, lengths) (st', some trial) ∧
      ∀ {b : Index}, Shape.InBounds batch b →
        ∃ k, s.StopsAfter (law.law batch b) (.of (u.runAt n b) (r.runAt n b) (d.runAt n b)) k ∧
          lengths[batch.offset b]? = some (s.stepLength k) ∧
          trial.runAt n b = EntryStart.trial (.of (u.runAt n b) (r.runAt n b) (d.runAt n b))
            (s.stepLength k) := by
  obtain ⟨batch, _, hlift, -⟩ := Update.bind_eq_ok.1 h
  have hbatch := (SolveError.lift_eq_ok.1 hlift).1
  obtain ⟨⟨s', w'⟩, hrecorded, rfl⟩ := (s.inStep_search sys.recorded_solvedAlike.toTriedAlike
    u r d st (st, none) rfl).1 (trial, lengths) st' h
  obtain ⟨x, hx, hsearch⟩ := s.search_eq_trials sys.recorded hbatch hu hr hd
  rw [if_neg hn.ne'] at hsearch
  have htrials := hrecorded
  rw [hsearch] at htrials
  -- The trials number the entries, so the law of an entry is read from its number.
  obtain ⟨f, hf⟩ : ∃ f : Nat → Vector α n → Vector α n, ∀ {b : Index}, Shape.InBounds batch b →
      law.law batch b = f (batch.offset b) := by
    refine ⟨fun k => law.law batch ((Shape.indices batch)[k]?.getD []), fun {b} hb => ?_⟩
    dsimp only
    rw [Shape.getElem?_indices_offset hb]
    rfl
  obtain ⟨c, hstops, rfl, htrial, _, ⟨_, _⟩, _, hset, hres⟩ := trials_eq_ok law.recorded hn
    hf (fun _ _ => searching_start hmax) htrials
  have hheld : w' = some trial := by
    obtain ⟨-, rfl⟩ := Update.onFirst_eq_ok.1 hres
    exact (NonlinearSystem.recorded_setSolution_eq_ok.1 hset).2
  refine ⟨batch, hbatch, htrial.batch_eq, htrial.packed, by simp, hheld ▸ hrecorded,
    fun {b} hb => ⟨c (batch.offset b), ?_⟩⟩
  have hlt := Shape.offset_lt hb
  have hk := hstops _ hlt
  have hrun : trial.runAt n b = _ := (Except.ok.inj (htrial.run_eq hb)).symm
  rw [← hf hb, hx hb] at hk
  rw [hx hb] at hrun
  refine ⟨hk, ?_, hrun⟩
  rw [List.getElem?_map, List.getElem?_range hlt]
  rfl

/-- A search treats every batch entry as if it were alone, where the residual of an entry is a
function of that entry of the solution. Each entry has been cut up to its first sufficient
trial, or up to the last one where none is sufficient, and is moved by the step length that this
leaves. The search of the entry by itself returns the same, and the system is left at the
returned iterate. -/
theorem search_entrywise (law : sys.EntryLaw n) (hmax : 0 < s.maxTrials) (hn : 0 < n)
    {u r d trial : Tensor α} {lengths : List α} {st st' : σ} (hu : u.Packed n) (hr : r.Packed n)
    (hd : d.Packed n) (h : s.search sys u r d st = .ok (trial, lengths) st') :
    ∃ batch, Shape.broadcastAll [u.batch, r.batch, d.batch] = .ok batch ∧
      trial.batch = batch ∧ trial.Packed n ∧ lengths.length = batch.numel ∧
      s.search sys.recorded u r d (st, none) = .ok (trial, lengths) (st', some trial) ∧
      ∀ {b : Index}, Shape.InBounds batch b →
        ∃ (x : EntryStart α n) (k : Nat), x = .of (u.runAt n b) (r.runAt n b) (d.runAt n b) ∧
          s.StopsAfter (law.law batch b) x k ∧
          lengths[batch.offset b]? = some (s.stepLength k) ∧
          trial.runAt n b = x.trial (s.stepLength k) ∧
          ∀ {ρ : Type} {alone : NonlinearSystem ρ α} {u₁ r₁ d₁ : Tensor α} (w : ρ),
            u₁.IsEntry u n b → r₁.IsEntry r n b → d₁.IsEntry d n b →
            (∀ i ≤ k, alone.Follows (law.law batch b) (x.trial (s.stepLength i))) →
              ∃ t₁ w', s.search alone u₁ r₁ d₁ w = .ok (t₁, [s.stepLength k]) w' ∧
                t₁.IsEntry trial n b := by
  obtain ⟨batch, hbatch, htb, htp, hlen, hheld, hstops⟩ := search_stops law hmax hn hu hr hd h
  refine ⟨batch, hbatch, htb, htp, hlen, hheld, fun {b} hb => ?_⟩
  obtain ⟨k, hk, hlength, hrun⟩ := hstops hb
  refine ⟨_, k, rfl, hk, hlength, hrun, fun w hu₁ hr₁ hd₁ hfollows => ?_⟩
  obtain ⟨t₁, w₁, htb, htp, ht, halone⟩ := search_alone hn hu₁ hr₁ hd₁ hk hfollows w
  exact ⟨t₁, w₁, halone, htb, htp, ht.trans hrun.symm⟩

end Search

theorem follows_entrywise [Zero α] {n : Nat} (f : α → α) (j : Tensor α) (v : Vector α n) :
    (NonlinearSystem.entrywise f j).Follows (fun v => v.map f) v := by
  intro t st htb htp hrun
  refine ⟨some t, t.map f, some t, rfl, rfl, htb, htp, ?_⟩
  have hself : t.batch.expandsTo [] = true := htb ▸ Shape.expandsTo_refl []
  have hin : Shape.InBounds [] [] := trivial
  rw [← hrun]
  exact htp.map_run f hself hin

/-- Two entries of `u = 0` at one, with directions to zero and far beyond it. The second one is
cut twice, in the batch and by itself. -/
theorem search_entrywise_overshoot :
    let s : LineSearch ℚ := .standard .dense
    let sys := NonlinearSystem.entrywise id (⟨[], [], [1, 1], #[1], rfl⟩ : Tensor ℚ)
    let u : Tensor ℚ := ⟨[2], [], [1], #[1, 1], rfl⟩
    let d : Tensor ℚ := ⟨[2], [], [1], #[-1, -4], rfl⟩
    let u₁ : Tensor ℚ := ⟨[], [], [1], #[1], rfl⟩
    let d₁ : Tensor ℚ := ⟨[], [], [1], #[-4], rfl⟩
    0 < s.maxTrials ∧ 0 < 1 ∧ u.Packed 1 ∧ d.Packed 1 ∧ u₁.IsEntry u 1 [1] ∧ d₁.IsEntry d 1 [1] ∧
      ∃ trial st', s.search sys u u d none = .ok (trial, [1, 1 / 4]) st' ∧
        s.search sys.recorded u u d (none, none) = .ok (trial, [1, 1 / 4]) (st', some trial) ∧
        ∃ t₁ w', s.search sys u₁ u₁ d₁ none = .ok (t₁, [1 / 4]) w' ∧ t₁.IsEntry trial 1 [1] := by
  intro s sys u d u₁ d₁
  have hmax : 0 < s.maxTrials := by decide
  have hu : u.Packed 1 := ⟨rfl, rfl⟩
  have hd : d.Packed 1 := ⟨rfl, rfl⟩
  have hu₁ : u₁.IsEntry u 1 [1] := ⟨rfl, ⟨rfl, rfl⟩, by decide +kernel⟩
  have hd₁ : d₁.IsEntry d 1 [1] := ⟨rfl, ⟨rfl, rfl⟩, by decide +kernel⟩
  have hlengths : (((s.search sys u u d).outcome none).1.map (·.2)).toOption = some [1, 1 / 4] := by
    decide +kernel
  obtain ⟨⟨trial, _⟩, hsearch, rfl⟩ := Update.exists_of_toOption_map hlengths
  have h := Update.outcome_eq_ok.1 (Prod.ext hsearch rfl)
  obtain ⟨batch, hbatch, -, -, -, hheld, hentries⟩ := search_entrywise
    (TrustRegion.entrywiseLaw id _ 1) hmax Nat.one_pos hu hu hd h
  cases hbatch
  obtain ⟨x, k, -, -, hlength, -, halone⟩ := hentries (b := [1]) (by decide)
  obtain ⟨t₁, w', h₁, hentry⟩ : ∃ t₁ w', s.search sys u₁ u₁ d₁ none =
      .ok (t₁, [s.stepLength k]) w' ∧ t₁.IsEntry trial 1 [1] :=
    halone none hu₁ hu₁ hd₁ fun i _ => follows_entrywise id _ _
  have hk : s.stepLength k = 1 / 4 := (Option.some.inj hlength).symm
  rw [hk] at h₁
  exact ⟨hmax, Nat.one_pos, hu, hd, hu₁, hd₁, trial, _, h, hheld, t₁, w', h₁, hentry⟩

end LineSearch

end TieredCalculus
