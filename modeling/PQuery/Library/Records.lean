import Mathlib.Data.List.Infix
import PQuery.Library.Interleaving

/-!
# Records written in parts

What the components of an interleaved run emit, each step one text at most, depending on the
component alone. The trace of a run is a shuffle of what its components emit alone (`own_trace`). A
component means to emit records, each of several parts; the trace is `Whole` if the parts of every
record stand together in it, those of each component being its first records in order. Whatever the
interleaving, the trace is whole if and only if every component alone emits whole records, and none
emits one of more than one part while another one emits anything (`forall_whole_iff`).
-/

namespace Interleaving

variable {σ τ α β : Type*} {step : α → σ → τ → Option (σ × τ)} {solo : α → τ → Option τ}
  {out : α → τ → Option β}

/-! ### Traces -/

/-- What the components emit along a run, each text with the index of its component. -/
def trace (step : α → σ → τ → Option (σ × τ)) (out : α → τ → Option β) :
    Config σ τ → List (Nat × α) → List (Nat × β)
  | _, [] => []
  | c, e :: es =>
    match next step c e with
    | none => []
    | some c' => ((c.locals[e.1]?).bind (out e.2)).toList.map (Prod.mk e.1) ++ trace step out c' es

/-- What a component emits alone. -/
def soloTrace (solo : α → τ → Option τ) (out : α → τ → Option β) : τ → List α → List β
  | _, [] => []
  | l, a :: as =>
    match solo a l with
    | none => []
    | some l' => (out a l).toList ++ soloTrace solo out l' as

theorem trace_cons {c c₁ : Config σ τ} {e : Nat × α} {es : List (Nat × α)}
    (h : next step c e = some c₁) : trace step out c (e :: es) =
      ((c.locals[e.1]?).bind (out e.2)).toList.map (Prod.mk e.1) ++ trace step out c₁ es := by
  rw [trace, h]

theorem soloTrace_cons {l l₁ : τ} {a : α} {as : List α} (h : solo a l = some l₁) :
    soloTrace solo out l (a :: as) = (out a l).toList ++ soloTrace solo out l₁ as := by
  rw [soloTrace, h]

theorem run_append {es es' : List (Nat × α)} : ∀ {c c' : Config σ τ},
    run step c (es ++ es') = some c' ↔
      ∃ c₁, run step c es = some c₁ ∧ run step c₁ es' = some c' := by
  induction es with
  | nil => exact fun {c c'} => ⟨fun h => ⟨c, rfl, h⟩, fun ⟨c₁, h, h'⟩ => by cases h; exact h'⟩
  | cons e es ih =>
    intro c c'
    rw [List.cons_append, run_cons]
    constructor
    · rintro ⟨d, hnext, hrun⟩
      obtain ⟨c₁, h, h'⟩ := ih.mp hrun
      exact ⟨c₁, run_cons.mpr ⟨d, hnext, h⟩, h'⟩
    · rintro ⟨c₁, h, h'⟩
      obtain ⟨d, hnext, hrun⟩ := run_cons.mp h
      exact ⟨d, hnext, ih.mpr ⟨c₁, hrun, h'⟩⟩

theorem trace_append {es es' : List (Nat × α)} : ∀ {c c₁ : Config σ τ}, run step c es = some c₁ →
    trace step out c (es ++ es') = trace step out c es ++ trace step out c₁ es' := by
  induction es with
  | nil =>
    intro c c₁ h
    obtain rfl := Option.some.inj h
    rfl
  | cons e es ih =>
    intro c c₁ h
    obtain ⟨d, hnext, hrun⟩ := run_cons.mp h
    rw [List.cons_append, trace_cons hnext, trace_cons hnext, ih hrun, List.append_assoc]

/-- A component contributes to the trace what it emits alone. -/
theorem own_trace (hsolo : ∀ a s l, (step a s l).map Prod.snd = solo a l) {es : List (Nat × α)} :
    ∀ {c c' : Config σ τ}, run step c es = some c' → ∀ {k l}, c.locals[k]? = some l →
      own k (trace step out c es) = soloTrace solo out l (own k es) := by
  induction es with
  | nil => exact fun _ _ _ _ => rfl
  | cons e es ih =>
    intro c c' h k l hl
    obtain ⟨c₁, hnext, hrun⟩ := run_cons.mp h
    obtain ⟨m, s', m', hm, hstep, rfl⟩ := next_eq_some.mp hnext
    have hbound : e.1 < c.locals.length := (List.getElem?_eq_some_iff.mp hm).1
    have hm' : solo e.2 m = some m' := by
      rw [← hsolo e.2 c.shared m, hstep]
      rfl
    rw [trace_cons hnext, own_append, own_map_mk, own, hm]
    by_cases hk : e.1 = k
    · have hset : (c.locals.set e.1 m')[k]? = some m' := by
        rw [← hk, List.getElem?_set_self hbound]
      obtain rfl : m = l := by
        rw [← hk, hm] at hl
        exact Option.some.inj hl
      rw [if_pos hk, if_pos hk, ih hrun hset, soloTrace_cons hm']
      rfl
    · have hset : (c.locals.set e.1 m')[k]? = some l := by
        rw [List.getElem?_set_ne hk]
        exact hl
      rw [if_neg hk, if_neg hk, ih hrun hset]
      rfl

theorem lt_of_mem_run {es : List (Nat × α)} : ∀ {c c' : Config σ τ}, run step c es = some c' →
    ∀ e ∈ es, e.1 < c.locals.length := by
  induction es with
  | nil => exact fun _ e he => by cases he
  | cons e es ih =>
    intro c c' h e' he'
    obtain ⟨c₁, hnext, hrun⟩ := run_cons.mp h
    obtain ⟨m, s', m', hm, _, rfl⟩ := next_eq_some.mp hnext
    rcases List.mem_cons.mp he' with rfl | he'
    · exact (List.getElem?_eq_some_iff.mp hm).1
    · have hlt := ih hrun e' he'
      rwa [List.length_set] at hlt

theorem exists_of_mem_trace {es : List (Nat × α)} : ∀ {c : Config σ τ} {x : Nat × β},
    x ∈ trace step out c es → ∃ e ∈ es, e.1 = x.1 := by
  induction es with
  | nil => exact fun h => by cases h
  | cons e es ih =>
    intro c x hx
    cases hnext : next step c e with
    | none =>
      rw [trace, hnext] at hx
      cases hx
    | some c₁ =>
      rw [trace_cons hnext] at hx
      rcases List.mem_append.mp hx with hx | hx
      · obtain ⟨_, _, rfl⟩ := List.mem_map.mp hx
        exact ⟨e, List.mem_cons_self, rfl⟩
      · obtain ⟨e', he', hsame⟩ := ih hx
        exact ⟨e', List.mem_cons_of_mem e he', hsame⟩

theorem eq_map_own {k : Nat} {xs : List (Nat × β)} (h : ∀ x ∈ xs, x.1 = k) :
    xs = (own k xs).map (Prod.mk k) := by
  induction xs with
  | nil => rfl
  | cons x xs ih =>
    have hx : x.1 = k := h x List.mem_cons_self
    rw [own, if_pos hx, List.map_cons, ← ih fun y hy => h y (List.mem_cons_of_mem x hy), ← hx]

theorem own_eq_nil {k : Nat} {xs : List (Nat × β)} (h : ∀ x ∈ xs, x.1 ≠ k) : own k xs = [] := by
  induction xs with
  | nil => rfl
  | cons x xs ih =>
    rw [own, if_neg (h x List.mem_cons_self), ih fun y hy => h y (List.mem_cons_of_mem x hy)]

theorem trace_map_mk (hsolo : ∀ a s l, (step a s l).map Prod.snd = solo a l) {c c' : Config σ τ}
    {k : Nat} {as : List α} (h : run step c (as.map (Prod.mk k)) = some c') {l : τ}
    (hl : c.locals[k]? = some l) :
    trace step out c (as.map (Prod.mk k)) = (soloTrace solo out l as).map (Prod.mk k) := by
  have hall : ∀ x ∈ trace step out c (as.map (Prod.mk k)), x.1 = k := by
    intro x hx
    obtain ⟨e, he, hsame⟩ := exists_of_mem_trace hx
    obtain ⟨_, _, rfl⟩ := List.mem_map.mp he
    exact hsame.symm
  rw [eq_map_own hall, own_trace hsolo h hl, own_map_mk, if_pos rfl]

theorem exists_soloTrace_prefix {as : List α} : ∀ {l l' : τ} {u v : List β},
    soloRun solo l as = some l' → soloTrace solo out l as = u ++ v →
      ∃ as₁ as₂, as = as₁ ++ as₂ ∧ soloTrace solo out l as₁ = u := by
  induction as with
  | nil =>
    intro l l' u v _ h
    exact ⟨[], [], rfl, (List.append_eq_nil_iff.mp h.symm).1.symm⟩
  | cons a as ih =>
    intro l l' u v hrun h
    obtain ⟨m, hm, hrun⟩ := soloRun_cons.mp hrun
    rw [soloTrace_cons hm] at h
    cases u with
    | nil => exact ⟨[], a :: as, rfl, rfl⟩
    | cons x u =>
      cases hout : out a l with
      | none =>
        rw [hout] at h
        obtain ⟨as₁, as₂, rfl, htrace⟩ := ih hrun h
        refine ⟨a :: as₁, as₂, rfl, ?_⟩
        rw [soloTrace_cons hm, hout, htrace]
        rfl
      | some y =>
        rw [hout] at h
        obtain ⟨rfl, hrest⟩ := List.cons.inj h
        obtain ⟨as₁, as₂, rfl, htrace⟩ := ih hrun hrest
        refine ⟨a :: as₁, as₂, rfl, ?_⟩
        rw [soloTrace_cons hm, hout, htrace]
        rfl

/-! ### Records -/

/-- A record in a trace: its parts, one after the other. -/
def parts (r : Nat × List β) : List (Nat × β) := r.2.map (Prod.mk r.1)

/-- The trace is a sequence of whole records, those of each component being its first ones. -/
def Whole (records : Nat → List (List β)) (xs : List (Nat × β)) : Prop :=
  ∃ rs : List (Nat × List β), xs = rs.flatMap parts ∧ ∀ k, own k rs <+: records k

theorem own_parts (k : Nat) (r : Nat × List β) : own k (parts r) = if r.1 = k then r.2 else [] :=
  own_map_mk r.1 k r.2

theorem own_flatMap_parts (k : Nat) (rs : List (Nat × List β)) :
    own k (rs.flatMap parts) = (own k rs).flatten := by
  induction rs with
  | nil => rfl
  | cons r rs ih =>
    rw [List.flatMap_cons, own_append, own_parts, ih, own]
    split <;> rfl

theorem own_of_flatMap_parts {i j : Nat} (hne : j ≠ i) {y : β} {rs : List (Nat × List β)} :
    ∀ {xs ys : List (Nat × β)}, rs.flatMap parts = xs ++ (j, y) :: ys →
      ∃ n, own i xs = ((own i rs).take n).flatten := by
  induction rs with
  | nil => exact fun {xs ys} h => by simp at h
  | cons r rs ih =>
    intro xs ys h
    rw [List.flatMap_cons] at h
    rcases List.append_eq_append_iff.mp h with ⟨us, rfl, hrest⟩ | ⟨us, hr, hrest⟩
    · obtain ⟨n, hn⟩ := ih hrest
      rw [own_append, own_parts, hn, own]
      by_cases hri : r.1 = i
      · rw [if_pos hri, if_pos hri]
        exact ⟨n + 1, rfl⟩
      · rw [if_neg hri, if_neg hri]
        exact ⟨n, rfl⟩
    · cases us with
      | nil =>
        rw [List.append_nil] at hr
        rw [← hr, own_parts, own]
        by_cases hri : r.1 = i
        · rw [if_pos hri, if_pos hri]
          exact ⟨1, by simp⟩
        · rw [if_neg hri, if_neg hri]
          exact ⟨0, rfl⟩
      | cons u us =>
        -- the text is one of the parts of `r`, and so are all before it
        have hmem : ∀ x ∈ parts r, x.1 = r.1 := by
          intro x hx
          obtain ⟨_, _, rfl⟩ := List.mem_map.mp hx
          rfl
        obtain ⟨rfl, _⟩ := List.cons.inj hrest
        have hj : j = r.1 := hmem (j, y) (by rw [hr]; simp)
        refine ⟨0, own_eq_nil fun x hx => ?_⟩
        rw [hmem x (by rw [hr]; exact List.mem_append_left _ hx), ← hj]
        exact hne

/-! ### Every interleaving -/

section
variable {c : Config σ τ} {acts : Nat → List α} {records : Nat → List (List β)}

/-- What the components have to be like so that no interleaving cuts a record: each emits whole
records alone, and where one emits one of several parts, no other emits anything. -/
def Apart (texts : Nat → List β) (records : Nat → List (List β)) (n : Nat) : Prop :=
  ∀ i < n, ∃ rs, rs <+: records i ∧ texts i = rs.flatten ∧
    ∀ r ∈ rs, 2 ≤ r.length → ∀ j < n, j ≠ i → texts j = []

theorem ne_of_own_eq_nil {k : Nat} {xs : List (Nat × β)} (h : own k xs = []) : ∀ x ∈ xs, x.1 ≠ k := by
  induction xs with
  | nil => exact fun x hx => by cases hx
  | cons x xs ih =>
    rw [own] at h
    by_cases hx : x.1 = k
    · rw [if_pos hx] at h
      cases h
    · rw [if_neg hx] at h
      intro y hy
      rcases List.mem_cons.mp hy with rfl | hy
      · exact hx
      · exact ih h y hy

theorem own_map_singleton (k : Nat) (xs : List (Nat × β)) :
    own k (xs.map fun x => (x.1, [x.2])) = (own k xs).map fun x => [x] := by
  induction xs with
  | nil => rfl
  | cons x xs ih =>
    rw [List.map_cons, own, own, ih]
    split <;> rfl

theorem map_flatten_singleton {rs : List (List β)} (h : ∀ r ∈ rs, r.length = 1) :
    rs.flatten.map (fun x => [x]) = rs := by
  induction rs with
  | nil => rfl
  | cons r rs ih =>
    obtain ⟨x, rfl⟩ := List.length_eq_one_iff.mp (h r List.mem_cons_self)
    rw [List.flatten_cons, List.map_append, ih fun r' hr' => h r' (List.mem_cons_of_mem _ hr')]
    rfl

theorem whole_of_apart {texts : Nat → List β} {n : Nat} (hne : ∀ k, ∀ r ∈ records k, r ≠ [])
    (h : Apart texts records n) {xs : List (Nat × β)} (hxs : ∀ x ∈ xs, x.1 < n)
    (hown : ∀ k < n, own k xs = texts k) : Whole records xs := by
  choose! rs hrs using h
  have hnone : ∀ k, ¬ k < n → own k xs = [] := fun k hk =>
    own_eq_nil fun x hx hxk => hk (hxk ▸ hxs x hx)
  by_cases hlong : ∃ i < n, ∃ r ∈ rs i, 2 ≤ r.length
  · -- one component has emitted everything
    obtain ⟨i, hi, r, hr, hlength⟩ := hlong
    obtain ⟨hfront, hflatten, halone⟩ := hrs i hi
    have hall : ∀ x ∈ xs, x.1 = i := by
      intro x hx
      by_contra hxi
      have hempty : own x.1 xs = [] := by
        rw [hown x.1 (hxs x hx)]
        exact halone r hr hlength x.1 (hxs x hx) hxi
      exact ne_of_own_eq_nil hempty x hx rfl
    refine ⟨(rs i).map (Prod.mk i), ?_, fun k => ?_⟩
    · rw [eq_map_own hall, hown i hi, hflatten, List.flatMap_map, List.map_flatten,
        List.flatMap_def]
      rfl
    · rw [own_map_mk]
      by_cases hk : i = k
      · rw [if_pos hk, ← hk]
        exact hfront
      · rw [if_neg hk]
        exact List.nil_prefix
  · -- every record is one text
    refine ⟨xs.map fun x => (x.1, [x.2]), ?_, fun k => ?_⟩
    · rw [List.flatMap_map]
      exact (List.flatMap_singleton' xs).symm
    · rw [own_map_singleton]
      by_cases hk : k < n
      · obtain ⟨hfront, hflatten, _⟩ := hrs k hk
        rw [hown k hk, hflatten, map_flatten_singleton]
        · exact hfront
        · intro r hr
          have hpos := List.length_pos_of_ne_nil (hne k r (hfront.subset hr))
          have hshort : ¬ 2 ≤ r.length := fun hlength => hlong ⟨k, hk, r, hr, hlength⟩
          omega
      · rw [hnone k hk]
        exact List.nil_prefix

/-- The beginning of a sequence of records that ends inside one of several parts. -/
theorem not_flatten_take {rs : List (List β)} {before after : List (List β)} {x y : β}
    {r : List β} (hrs : rs = before ++ (x :: y :: r) :: after) (n : Nat) :
    (rs.take n).flatten ≠ before.flatten ++ [x] := by
  intro h
  have hlength := congrArg List.length h
  rw [List.length_append, List.length_singleton] at hlength
  by_cases hn : n ≤ before.length
  · have hle : (rs.take n).flatten.length ≤ before.flatten.length := by
      rw [hrs, List.take_append_of_le_length hn]
      exact (List.IsPrefix.flatten (List.take_prefix n before)).length_le
    omega
  · have hle : (before ++ [x :: y :: r]).flatten.length ≤ (rs.take n).flatten.length := by
      refine (List.IsPrefix.flatten ?_).length_le
      refine List.prefix_take_iff.mpr ⟨⟨after, by simp [hrs]⟩, ?_⟩
      rw [List.length_append, List.length_singleton]
      omega
    simp only [List.flatten_append, List.length_append, List.flatten_cons, List.flatten_nil,
      List.append_nil, List.length_cons] at hle
    omega

/-- The steps of component `i` up to a text of its own, then all those of component `j`. -/
def cutting (acts : Nat → List α) (n i j : Nat) (first rest : List α) : List (Nat × α) :=
  first.map (Prod.mk i) ++ ((acts j).map (Prod.mk j) ++ (rest.map (Prod.mk i) ++
    sequential (fun k => if k = i ∨ k = j then [] else acts k) n))

theorem own_cutting {n i j : Nat} {first rest : List α} (hne : j ≠ i)
    (hacts : acts i = first ++ rest) {k : Nat} (hk : k < n) :
    own k (cutting acts n i j first rest) = acts k := by
  simp only [cutting, own_append, own_map_mk, own_sequential, if_pos hk]
  by_cases hki : k = i
  · rw [if_pos hki.symm, if_pos hki.symm, if_neg (by rw [hki]; exact hne), if_pos (.inl hki), hki,
      hacts]
    simp
  · rw [if_neg (Ne.symm hki), if_neg (Ne.symm hki)]
    by_cases hkj : k = j
    · rw [if_pos hkj.symm, if_pos (.inr hkj), hkj]
      simp
    · rw [if_neg (Ne.symm hkj), if_neg fun h => h.elim hki hkj]
      simp

theorem lt_of_mem_cutting {n i j : Nat} {first rest : List α} (hi : i < n) (hj : j < n) :
    ∀ e ∈ cutting acts n i j first rest, e.1 < n := by
  intro e he
  simp only [cutting, List.mem_append, List.mem_map] at he
  rcases he with ⟨_, _, rfl⟩ | ⟨_, _, rfl⟩ | ⟨_, _, rfl⟩ | he
  · exact hi
  · exact hj
  · exact hi
  · exact lt_of_mem_sequential he

theorem eq_nil_of_forall_whole (hsolo : ∀ a s l, (step a s l).map Prod.snd = solo a l)
    {start : Nat → τ} (hstart : ∀ k < c.locals.length, c.locals[k]? = some (start k))
    (hruns : ∀ k < c.locals.length, ∃ l, soloRun solo (start k) (acts k) = some l)
    (h : ∀ es c', run step c es = some c' → (∀ k < c.locals.length, own k es = acts k) →
      Whole records (trace step out c es))
    {i j : Nat} (hi : i < c.locals.length) (hj : j < c.locals.length) (hji : j ≠ i)
    {rs : List (List β)} (hrs : rs <+: records i)
    (htexts : soloTrace solo out (start i) (acts i) = rs.flatten) {r : List β} (hr : r ∈ rs)
    (hlength : 2 ≤ r.length) : soloTrace solo out (start j) (acts j) = [] := by
  obtain ⟨before, after, rfl⟩ := List.append_of_mem hr
  obtain ⟨x, y, r', rfl⟩ : ∃ x y r', r = x :: y :: r' := by
    match r, hlength with
    | x :: y :: r', _ => exact ⟨x, y, r', rfl⟩
  obtain ⟨li, hli⟩ := hruns i hi
  obtain ⟨first, rest, hacts, hfirst⟩ := exists_soloTrace_prefix (u := before.flatten ++ [x])
    (v := y :: r' ++ after.flatten) hli (by rw [htexts]; simp)
  cases hemitted : soloTrace solo out (start j) (acts j) with
  | nil => rfl
  | cons z zs =>
    exfalso
    obtain ⟨c', hc'⟩ : ∃ c', run step c (cutting acts c.locals.length i j first rest) = some c' := by
      refine exists_run_of_soloRun hsolo (lt_of_mem_cutting hi hj) fun k l hl => ?_
      have hk : k < c.locals.length := (List.getElem?_eq_some_iff.mp hl).1
      obtain rfl := Option.some.inj ((hstart k hk).symm.trans hl)
      rw [own_cutting hji hacts hk]
      exact hruns k hk
    obtain ⟨recs, hwhole, hfront⟩ := h _ c' hc' fun k hk => own_cutting hji hacts hk
    -- the trace begins with `i` inside its record, and then comes a text of `j`
    obtain ⟨c₁, hrun₁, hrest⟩ := run_append.mp hc'
    obtain ⟨c₂, hrun₂, _⟩ := run_append.mp hrest
    obtain ⟨lj, hlj, hstay⟩ := soloRun_of_run hsolo hrun₁ (hstart j hj)
    rw [own_map_mk, if_neg (Ne.symm hji)] at hstay
    obtain rfl := Option.some.inj hstay
    rw [cutting, trace_append hrun₁, trace_append hrun₂, trace_map_mk hsolo hrun₁ (hstart i hi),
      trace_map_mk hsolo hrun₂ hlj, hfirst, hemitted, List.map_cons, List.cons_append] at hwhole
    obtain ⟨n, hn⟩ := own_of_flatMap_parts hji hwhole.symm
    rw [own_map_mk, if_pos rfl] at hn
    obtain ⟨more, hmore⟩ := hrs
    have htake : (own i recs).take n = (records i).take ((own i recs).take n).length :=
      List.prefix_iff_eq_take.mp ((List.take_prefix n _).trans (hfront i))
    rw [htake] at hn
    exact not_flatten_take (by rw [← hmore, List.append_assoc]; rfl) _ hn.symm

/-- **Records of several parts.** Every interleaving of components with these actions leaves whole
records if and only if the components are apart. -/
theorem forall_whole_iff (hsolo : ∀ a s l, (step a s l).map Prod.snd = solo a l)
    {start : Nat → τ} (hstart : ∀ k < c.locals.length, c.locals[k]? = some (start k))
    (hruns : ∀ k < c.locals.length, ∃ l, soloRun solo (start k) (acts k) = some l)
    (hne : ∀ k, ∀ r ∈ records k, r ≠ []) :
    (∀ es c', run step c es = some c' → (∀ k < c.locals.length, own k es = acts k) →
      Whole records (trace step out c es)) ↔
    Apart (fun k => soloTrace solo out (start k) (acts k)) records c.locals.length := by
  constructor
  · intro h i hi
    have hown : ∀ k < c.locals.length, own k (sequential acts c.locals.length) = acts k := by
      intro k hk
      rw [own_sequential, if_pos hk]
    obtain ⟨c', hc'⟩ : ∃ c', run step c (sequential acts c.locals.length) = some c' := by
      refine exists_run_of_soloRun hsolo (fun e he => lt_of_mem_sequential he) fun k l hl => ?_
      have hk : k < c.locals.length := (List.getElem?_eq_some_iff.mp hl).1
      obtain rfl := Option.some.inj ((hstart k hk).symm.trans hl)
      rw [hown k hk]
      exact hruns k hk
    obtain ⟨recs, hwhole, hfront⟩ := h _ c' hc' hown
    have htexts : soloTrace solo out (start i) (acts i) = (own i recs).flatten := by
      rw [← hown i hi, ← own_trace hsolo hc' (hstart i hi), hwhole, own_flatMap_parts]
    exact ⟨own i recs, hfront i, htexts, fun r hr hlength j hj hji =>
      eq_nil_of_forall_whole hsolo hstart hruns h hi hj hji (hfront i) htexts hr hlength⟩
  · intro h es c' hrun hown
    refine whole_of_apart hne h (fun x hx => ?_) fun k hk => ?_
    · obtain ⟨e, he, hsame⟩ := exists_of_mem_trace hx
      rw [← hsame]
      exact lt_of_mem_run hrun e he
    · rw [own_trace hsolo hrun (hstart k hk), hown k hk]

end

/-! ### Shuffles -/

theorem soloTrace_append {as as' : List α} : ∀ {l l₁ : τ}, soloRun solo l as = some l₁ →
    soloTrace solo out l (as ++ as') = soloTrace solo out l as ++ soloTrace solo out l₁ as' := by
  induction as with
  | nil =>
    intro l l₁ h
    obtain rfl := Option.some.inj h
    rfl
  | cons a as ih =>
    intro l l₁ h
    obtain ⟨m, hm, hrun⟩ := soloRun_cons.mp h
    rw [List.cons_append, soloTrace_cons hm, soloTrace_cons hm, ih hrun, List.append_assoc]

theorem soloRun_append {as as' : List α} : ∀ {l l' : τ}, soloRun solo l (as ++ as') = some l' ↔
    ∃ l₁, soloRun solo l as = some l₁ ∧ soloRun solo l₁ as' = some l' := by
  induction as with
  | nil => exact fun {l l'} => ⟨fun h => ⟨l, rfl, h⟩, fun ⟨l₁, h, h'⟩ => by cases h; exact h'⟩
  | cons a as ih =>
    intro l l'
    rw [List.cons_append, soloRun_cons]
    constructor
    · rintro ⟨m, hm, hrun⟩
      obtain ⟨l₁, h, h'⟩ := ih.mp hrun
      exact ⟨l₁, soloRun_cons.mpr ⟨m, hm, h⟩, h'⟩
    · rintro ⟨l₁, h, h'⟩
      obtain ⟨m, hm, hrun⟩ := soloRun_cons.mp h
      exact ⟨m, hm, ih.mpr ⟨l₁, hrun, h'⟩⟩

theorem length_run {es : List (Nat × α)} {c c' : Config σ τ} (h : run step c es = some c') :
    c'.locals.length = c.locals.length := by
  refine run_invariant (I := fun d : Config σ τ => d.locals.length = c.locals.length) ?_ rfl h
  rintro d e d' hd hnext
  obtain ⟨l, s', l', _, _, rfl⟩ := next_eq_some.mp hnext
  exact List.length_set.trans hd

/-- Every shuffle of what the components emit alone is the trace of a run of theirs. -/
theorem exists_run_of_shuffle (hsolo : ∀ a s l, (step a s l).map Prod.snd = solo a l)
    {xs : List (Nat × β)} : ∀ {c : Config σ τ} {acts : Nat → List α}, (∀ x ∈ xs, x.1 < c.locals.length) →
      (∀ k l, c.locals[k]? = some l →
        (∃ l', soloRun solo l (acts k) = some l') ∧ own k xs = soloTrace solo out l (acts k)) →
      ∃ es c', run step c es = some c' ∧ (∀ k < c.locals.length, own k es = acts k) ∧
        trace step out c es = xs := by
  induction xs with
  | nil =>
    intro c acts _ hown
    have hacts : ∀ k < c.locals.length, own k (sequential acts c.locals.length) = acts k := by
      intro k hk
      rw [own_sequential, if_pos hk]
    obtain ⟨c', hrun⟩ : ∃ c', run step c (sequential acts c.locals.length) = some c' := by
      refine exists_run_of_soloRun hsolo (fun e he => lt_of_mem_sequential he) fun k l hl => ?_
      rw [hacts k (List.getElem?_eq_some_iff.mp hl).1]
      exact (hown k l hl).1
    refine ⟨_, c', hrun, hacts, List.eq_nil_iff_forall_not_mem.mpr fun x hx => ?_⟩
    obtain ⟨e, he, hsame⟩ := exists_of_mem_trace hx
    have hlt : x.1 < c.locals.length := hsame ▸ lt_of_mem_sequential he
    have hl := List.getElem?_eq_getElem hlt
    have hnil : own x.1 (trace step out c (sequential acts c.locals.length)) = [] := by
      rw [own_trace hsolo hrun hl, hacts _ hlt, ← (hown _ _ hl).2, own]
    exact ne_of_own_eq_nil hnil x hx rfl
  | cons x xs ih =>
    intro c acts hbound hown
    obtain ⟨k, y⟩ := x
    have hk : k < c.locals.length := hbound (k, y) List.mem_cons_self
    have hl := List.getElem?_eq_getElem hk
    obtain ⟨⟨l', hl'⟩, htrace⟩ := hown k _ hl
    rw [own, if_pos rfl] at htrace
    -- the component goes on to where it has emitted the first text
    obtain ⟨as₁, as₂, hacts, hfirst⟩ := exists_soloTrace_prefix (u := [y]) hl' htrace.symm
    rw [hacts] at hl' htrace
    obtain ⟨l₁, hl₁, hrest⟩ := soloRun_append.mp hl'
    obtain ⟨c₁, hrun₁⟩ : ∃ c₁, run step c (as₁.map (Prod.mk k)) = some c₁ := by
      refine exists_run_of_soloRun hsolo (fun e he => ?_) fun j m hm => ?_
      · obtain ⟨_, _, rfl⟩ := List.mem_map.mp he
        exact hk
      · rw [own_map_mk]
        by_cases hj : k = j
        · obtain rfl : c.locals[k] = m := Option.some.inj (hl.symm.trans (hj ▸ hm))
          rw [if_pos hj]
          exact ⟨l₁, hl₁⟩
        · rw [if_neg hj]
          exact ⟨m, rfl⟩
    have hlength := length_run hrun₁
    have hnext : ∀ j m, c₁.locals[j]? = some m →
        (∃ m', soloRun solo m (Function.update acts k as₂ j) = some m') ∧
          own j xs = soloTrace solo out m (Function.update acts k as₂ j) := by
      intro j m hm
      have hj : j < c.locals.length := by
        rw [← hlength]
        exact (List.getElem?_eq_some_iff.mp hm).1
      obtain ⟨m₁, hm₁, hsoloRun⟩ := soloRun_of_run hsolo hrun₁ (List.getElem?_eq_getElem hj)
      obtain rfl := Option.some.inj (hm.symm.trans hm₁)
      rw [own_map_mk] at hsoloRun
      by_cases hkj : k = j
      · subst hkj
        rw [if_pos rfl] at hsoloRun
        obtain rfl := Option.some.inj (hl₁.symm.trans hsoloRun)
        rw [Function.update_self]
        rw [soloTrace_append hl₁, hfirst] at htrace
        exact ⟨⟨l', hrest⟩, (List.cons.inj htrace).2⟩
      · rw [if_neg hkj] at hsoloRun
        obtain rfl := Option.some.inj hsoloRun
        rw [Function.update_of_ne (Ne.symm hkj)]
        obtain ⟨hexists, hsame⟩ := hown j _ (List.getElem?_eq_getElem hj)
        rw [own, if_neg hkj] at hsame
        exact ⟨hexists, hsame⟩
    obtain ⟨es, c', hrun, hes, htail⟩ := @ih c₁ (Function.update acts k as₂) (fun x hx => by
      rw [hlength]
      exact hbound x (List.mem_cons_of_mem _ hx)) hnext
    refine ⟨as₁.map (Prod.mk k) ++ es, c', run_append.mpr ⟨c₁, hrun₁, hrun⟩, fun j hj => ?_, ?_⟩
    · rw [own_append, own_map_mk, hes j (by rwa [hlength])]
      by_cases hkj : k = j
      · rw [if_pos hkj, ← hkj, Function.update_self, hacts]
      · rw [if_neg hkj, Function.update_of_ne (Ne.symm hkj), List.nil_append]
    · rw [trace_append hrun₁, htail, trace_map_mk hsolo hrun₁ hl, hfirst]
      rfl

end Interleaving
