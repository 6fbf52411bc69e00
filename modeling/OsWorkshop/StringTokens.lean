-- strtok of libc (src/libc/src/string/strtok.c), called again and again: it takes a string apart
-- in the memory, where each token ends at a NUL put over the delimiter behind it. The string is a
-- list here, of which each call takes a token off the front.
import OsWorkshop.Strings

open os_workshop.memory

namespace os_workshop.string

/-! ## The code -/

/-- The memory and the variable `___strtok`, a pointer which may be null. -/
structure Strtok where
  mem : Mem
  saved : Option Word

/-- The value is a pointer, which may be null. -/
def strtok (st : Strtok) (s : Option Word) (ct : Word) : Option (Strtok × Option Word) :=
  match s.or st.saved with
  | none => some (st, none)
  | some sbegin => do
    let n ← strspn st.mem sbegin ct
    let sbegin := sbegin + n
    if st.mem sbegin = 0 then
      some ({ st with saved := none }, none)
    else
      match ← strpbrk st.mem sbegin ct with
      | some send =>
        if st.mem send ≠ 0 then
          some (⟨write st.mem send [0], some (send + 1)⟩, some sbegin)
        else
          some ({ st with saved := some send }, some sbegin)
      | none => some ({ st with saved := none }, some sbegin)

/-- A call for each set of delimiters: the first gets the string, and the others a null pointer. -/
def strtoks (st : Strtok) (s : Option Word) : List Word → Option (Strtok × List (Option Word))
  | [] => some (st, [])
  | ct :: cts => do
    let (st, p) ← strtok st s ct
    let (st, ps) ← strtoks st none cts
    return (st, p :: ps)

/-! ## Tokens of a list -/

/-- The rest of the string, if there is one, with a token taken off. -/
def take_token (d : List Byte) : Option (List Byte) → Option (List Byte) × Option (List Byte)
  | none => (none, none)
  | some s =>
    let s := s.dropWhile (d.contains ·)
    if s = [] then (none, none)
    else (some (s.takeWhile (!d.contains ·)),
      match s.dropWhile (!d.contains ·) with
      | [] => none
      | _ :: rest => some rest)

theorem take_token_eq (d s : List Byte) : take_token d (some s) =
    let s := s.dropWhile (· ∈ d)
    if s = [] then (none, none)
    else (some (s.takeWhile (· ∉ d)),
      match s.dropWhile (· ∉ d) with
      | [] => none
      | _ :: rest => some rest) := by
  simp [take_token]

def take_tokens (s : Option (List Byte)) : List (List Byte) → List (Option (List Byte))
  | [] => []
  | d :: ds => (take_token d s).1 :: take_tokens (take_token d s).2 ds

/-- What stands between the characters of `d`, without what is empty. -/
def fields (d s : List Byte) : List (List Byte) := (s.splitOnP (d.contains ·)).filter (· ≠ [])

theorem fields_eq (d s : List Byte) : fields d s = (s.splitOnP (· ∈ d)).filter (· ≠ []) := by
  simp [fields]

section

variable {d s t : List Byte}

theorem fields_nil (d : List Byte) : fields d [] = [] := by simp [fields_eq]

theorem fields_cons {c : Byte} (hc : c ∈ d) (s : List Byte) : fields d (c :: s) = fields d s := by
  simp only [fields_eq]
  rw [List.splitOnP_cons_eq_if_modifyHead]
  simp [hc]

/-- The characters in front of a token do not count. -/
theorem fields_dropWhile (d s : List Byte) : fields d (s.dropWhile (· ∈ d)) = fields d s := by
  induction s with
  | nil => rfl
  | cons c s ih =>
    by_cases hc : c ∈ d
    · rw [List.dropWhile_cons_of_pos (by simpa using hc), fields_cons hc, ih]
    · rw [List.dropWhile_cons_of_neg (by simpa using hc)]

theorem fields_single (hs : s ≠ []) (h : ∀ c ∈ s, c ∉ d) : fields d s = [s] := by
  simp only [fields_eq]
  rw [List.splitOnP_eq_singleton (by simpa using h)]
  simp [hs]

theorem fields_append {c : Byte} (hs : s ≠ []) (h : ∀ c ∈ s, c ∉ d) (hc : c ∈ d)
    (t : List Byte) : fields d (s ++ c :: t) = s :: fields d t := by
  simp only [fields_eq]
  rw [List.splitOnP_append_cons_of_forall_mem (by simpa using h) c (by simpa using hc)]
  simp [hs]

theorem not_mem_takeWhile (d s : List Byte) : ∀ c ∈ s.takeWhile (· ∉ d), c ∉ d := by
  intro c hc
  simpa using List.mem_takeWhile_imp hc

/-- A string that does not start with a delimiter, cut at the first one. -/
theorem takeWhile_ne_nil (h : s.dropWhile (· ∈ d) ≠ []) :
    (s.dropWhile (· ∈ d)).takeWhile (· ∉ d) ≠ [] := by
  have hhead := List.head_dropWhile_not (· ∈ d) h
  obtain ⟨c, r, hr⟩ := List.exists_cons_of_ne_nil h
  simp only [hr, List.head_cons, decide_eq_false_iff_not] at hhead
  rw [hr, List.takeWhile_cons_of_pos (by simpa using hhead)]
  simp

/-- The first call takes the first field, and leaves the others. -/
theorem take_token_fields (d : List Byte) (s : Option (List Byte)) :
    (take_token d s).1 = ((s.elim [] (fields d))[0]?) ∧
      (take_token d s).2.elim [] (fields d) = (s.elim [] (fields d)).tail := by
  cases s with
  | none => exact ⟨rfl, rfl⟩
  | some s =>
    rw [take_token_eq]
    dsimp only [Option.elim_some]
    rw [← fields_dropWhile d s]
    by_cases hnil : s.dropWhile (· ∈ d) = []
    · rw [if_pos hnil, hnil, fields_nil]
      exact ⟨rfl, rfl⟩
    · rw [if_neg hnil]
      have hne := takeWhile_ne_nil hnil
      have hnot := not_mem_takeWhile d (s.dropWhile (· ∈ d))
      have hjoin := List.takeWhile_append_dropWhile
        (p := fun c => decide (c ∉ d)) (l := s.dropWhile (· ∈ d))
      cases hdrop : (s.dropWhile (· ∈ d)).dropWhile (· ∉ d) with
      | nil =>
        rw [hdrop, List.append_nil] at hjoin
        have hsingle := fields_single hne hnot
        rw [hjoin] at hsingle
        rw [hsingle]
        exact ⟨by simpa using hjoin, rfl⟩
      | cons c rest =>
        have hc : c ∈ d := by
          have hhead := List.head_dropWhile_not (fun c => decide (c ∉ d))
            (l := s.dropWhile (· ∈ d)) (by rw [hdrop]; simp)
          simpa only [hdrop, List.head_cons, decide_eq_false_iff_not, not_not] using hhead
        rw [hdrop] at hjoin
        have happend := fields_append hne hnot hc rest
        rw [hjoin] at happend
        rw [happend]
        exact ⟨rfl, rfl⟩

/-- With the same delimiters each time, the calls give the fields of the string one by one. -/
theorem take_tokens_fields (d : List Byte) (s : Option (List Byte)) (n : Nat) :
    take_tokens s (List.replicate n d) =
      (List.range n).map fun i => (s.elim [] (fields d))[i]? := by
  induction n generalizing s with
  | zero => rfl
  | succ n ih =>
    obtain ⟨hfirst, hrest⟩ := take_token_fields d s
    rw [List.replicate_succ, take_tokens, ih, hfirst, hrest, List.range_succ_eq_map, List.map_cons,
      List.map_map]
    congr 1
    apply List.map_congr_left
    intro i _
    simp [List.getElem?_tail]

end

/-! ## One call -/

section

variable {m m' : Mem} {a : Word} {s t : List Byte}

/-- A string depends on its own bytes and its NUL. -/
theorem Str.congr (h : Str m a s) (heq : ∀ i ≤ s.length, m' (a + BitVec.ofNat 32 i) =
    m (a + BitVec.ofNat 32 i)) : Str m' a s := by
  apply str_of_get
  · intro i hi
    rw [heq i hi.le]
    exact h.get hi
  · rw [heq _ le_rfl]
    exact h.end_nul

theorem write_nul (m : Mem) (a x : Word) : write m a [0] x = if x = a then 0 else m x := by
  split
  · rename_i h
    subst h
    simp [write]
  · rename_i h
    apply write_out
    unfold memory.dist
    simp only [List.length_singleton]
    bv_omega

theorem add_ofNat_ne (a : Word) {i j : Nat} (hi : i < 2 ^ 32) (hj : j < 2 ^ 32) (h : i ≠ j) :
    a + BitVec.ofNat 32 i ≠ a + BitVec.ofNat 32 j := by
  intro he
  have hdist := congrArg (memory.dist a) he
  rw [dist_add a i hi, dist_add a j hj] at hdist
  exact h hdist

/-- The front of a string, when a NUL is put behind it. -/
theorem Str.cut (h : Str m a (s ++ t)) (hend : m' (a + BitVec.ofNat 32 s.length) = 0)
    (heq : ∀ i < s.length, m' (a + BitVec.ofNat 32 i) = m (a + BitVec.ofNat 32 i)) :
    Str m' a s := by
  apply str_of_get _ hend
  intro i hi
  have hget := h.get (i := i) (by simp; omega)
  rw [List.getElem_append_left hi] at hget
  rwa [heq i hi]

/-- What a pointer, which may be null, says of a string that may be there. -/
def Points (m : Mem) : Option Word → Option (List Byte) → Prop
  | none, none => True
  | some p, some s => Str m p s
  | _, _ => False

/-- A call on the string `s` at `a`: the token `tok` is found at `p`, and the rest is saved. Only a
delimiter in the string is overwritten, and the token with its NUL stands in front of the rest. -/
structure Called (m : Mem) (a : Word) (s d : List Byte) (st : Strtok) (p : Option Word) : Prop where
  token : Points st.mem p (take_token d (some s)).1
  rest : Points st.mem st.saved (take_token d (some s)).2
  mem : ∀ x, st.mem x = m x ∨ st.mem x = 0 ∧ m x ∈ d ∧ memory.dist a x < s.length
  apart : ∀ q r, st.saved = some q → (take_token d (some s)).2 = some r →
    ∃ k, q = a + BitVec.ofNat 32 k ∧ k + r.length = s.length ∧
      ∀ w tok, p = some w → (take_token d (some s)).1 = some tok →
        ∃ j, w = a + BitVec.ofNat 32 j ∧ j + tok.length < k

theorem strtok.spec {st : Strtok} {set : Word} {d : List Byte} {arg : Option Word}
    (harg : arg.or st.saved = some a) (h : Str st.mem a s) (hd : Str st.mem set d) :
    ∃ st' p, strtok st arg set = some (st', p) ∧ Called st.mem a s d st' p := by
  have hjoin := List.takeWhile_append_dropWhile (p := fun c => decide (c ∈ d)) (l := s)
  have hlen := congrArg List.length hjoin
  rw [List.length_append] at hlen
  have hfront : Str st.mem (a + BitVec.ofNat 32 (s.takeWhile (· ∈ d)).length)
      (s.dropWhile (· ∈ d)) := by
    apply Str.drop
    rwa [hjoin]
  unfold strtok
  rw [harg]
  dsimp only
  rw [strspn.spec hd h]
  simp only [Option.bind_eq_bind, Option.bind_some]
  generalize hskip : (s.takeWhile (· ∈ d)).length = n at hfront hlen ⊢
  generalize hr : s.dropWhile (· ∈ d) = r at hfront hlen ⊢
  have hshort := h.length_lt
  cases r with
  | nil =>
    have hend : st.mem (a + BitVec.ofNat 32 n) = 0 := hfront
    have htake : take_token d (some s) = (none, none) := by simp [take_token_eq, hr]
    rw [if_pos hend]
    refine ⟨_, _, rfl, by rw [htake]; trivial, by rw [htake]; trivial, fun x => .inl rfl, ?_⟩
    intro q r hq
    cases hq
  | cons c r =>
    have hc : st.mem (a + BitVec.ofNat 32 n) ≠ 0 := by
      rw [hfront.1]
      exact hfront.2.1
    rw [if_neg hc, strpbrk.spec hd hfront, first_of_eq, Option.bind_some]
    cases hdrop : (c :: r).dropWhile (· ∉ d) with
    | nil =>
      have htok := List.takeWhile_append_dropWhile (p := fun c => decide (c ∉ d)) (l := c :: r)
      rw [hdrop, List.append_nil] at htok
      have htake : take_token d (some s) = (some (c :: r), none) := by
        simp only [take_token_eq, hr, hdrop, htok]
        rfl
      rw [if_pos rfl]
      refine ⟨_, _, rfl, by rw [htake]; exact hfront, by rw [htake]; trivial, fun x => .inl rfl, ?_⟩
      intro q r hq
      cases hq
    | cons e rest =>
      have htok := List.takeWhile_append_dropWhile (p := fun c => decide (c ∉ d)) (l := c :: r)
      rw [hdrop] at htok
      generalize hword : (c :: r).takeWhile (· ∉ d) = tok at htok ⊢
      have htake : take_token d (some s) = (some tok, some rest) := by
        simp only [take_token_eq, hr, hdrop, hword]
        rfl
      have he : e ∈ d := by
        have hhead := List.head_dropWhile_not (fun c => decide (c ∉ d)) (l := c :: r)
          (by rw [hdrop]; simp)
        simpa only [hdrop, List.head_cons, decide_eq_false_iff_not, not_not] using hhead
      have hword_len : tok.length + (rest.length + 1) = r.length + 1 := by
        have hlen' := congrArg List.length htok
        simpa using hlen'
      rw [List.length_cons] at hlen
      have hsend : a + BitVec.ofNat 32 n + BitVec.ofNat 32 tok.length =
          a + BitVec.ofNat 32 (n + tok.length) := by rw [BitVec.add_assoc, ← BitVec.ofNat_add]
      have hrest : Str st.mem (a + BitVec.ofNat 32 (n + tok.length)) (e :: rest) := by
        rw [← hsend]
        apply Str.drop
        rwa [htok]
      rw [if_neg (by simp)]
      dsimp only
      rw [hsend, if_pos (by rw [hrest.1]; exact hrest.2.1)]
      have hnext : a + BitVec.ofNat 32 (n + tok.length) + 1 =
          a + BitVec.ofNat 32 (n + tok.length + 1) := by
        rw [BitVec.add_assoc, BitVec.ofNat_add _ 1]
        rfl
      refine ⟨_, _, rfl, ?_, ?_, ?_, ?_⟩
      · rw [htake]
        apply Str.cut (s := tok) (t := e :: rest) (by rwa [htok])
        · dsimp only
          rw [hsend, write_nul, if_pos rfl]
        · intro i hi
          have hplace : a + BitVec.ofNat 32 n + BitVec.ofNat 32 i = a + BitVec.ofNat 32 (n + i) := by
            rw [BitVec.add_assoc, ← BitVec.ofNat_add]
          dsimp only
          rw [hplace, write_nul, if_neg (add_ofNat_ne a (by omega) (by omega) (by omega))]
      · rw [htake]
        apply hrest.2.2.congr
        intro i hi
        dsimp only
        rw [hnext, BitVec.add_assoc, ← BitVec.ofNat_add, write_nul,
          if_neg (add_ofNat_ne a (by omega) (by omega) (by omega))]
      · intro x
        dsimp only
        rw [write_nul]
        split
        · rename_i hx
          refine .inr ⟨rfl, by rw [hx, hrest.1]; exact he, ?_⟩
          rw [hx, dist_add a _ (by omega)]
          omega
        · exact .inl rfl
      · intro q r' hq hr'
        rw [htake] at hr' ⊢
        obtain rfl := Option.some.inj hq
        obtain rfl := Option.some.inj hr'
        refine ⟨n + tok.length + 1, hnext, by omega, ?_⟩
        intro w tok' hw htok'
        obtain rfl := Option.some.inj hw
        obtain rfl := Option.some.inj htok'
        exact ⟨n, rfl, by omega⟩

/-! ## Many calls -/

/-- With nothing saved there are no more tokens. -/
theorem strtoks_none {st : Strtok} (hsaved : st.saved = none) (cts : List Word)
    (ds : List (List Byte)) (hlen : cts.length = ds.length) : ∃ ps,
    strtoks st none cts = some (st, ps) ∧ List.Forall₂ (Points m) ps (take_tokens none ds) := by
  induction cts generalizing ds with
  | nil =>
    obtain rfl := List.length_eq_zero_iff.mp hlen.symm
    exact ⟨[], rfl, .nil⟩
  | cons ct cts ih =>
    cases ds with
    | nil => cases hlen
    | cons d ds =>
      obtain ⟨ps, hps, hall⟩ := ih ds (by simpa using hlen)
      refine ⟨none :: ps, ?_, .cons trivial hall⟩
      have hfirst : strtok st none ct = some (st, none) := by simp [strtok, hsaved]
      simp [strtoks, hfirst, hps]

/-- A string stands on its own, apart from the one that is taken apart. -/
def Aside (m : Mem) (a : Word) (s : List Byte) (c : Word) (d : List Byte) : Prop :=
  Str m c d ∧ Clear c (d.length + 1) a (s.length + 1)

theorem Called.aside {st' : Strtok} {p : Option Word} {d d' : List Byte} {c q : Word}
    {r : List Byte} (h : Called m a s d st' p) (hs : s.length < 2 ^ 32)
    (haside : Aside m a s c d') {k : Nat} (hq : q = a + BitVec.ofNat 32 k)
    (hk : k + r.length = s.length) : Aside st'.mem q r c d' := by
  obtain ⟨hstr, hclear⟩ := haside
  refine ⟨hstr.congr fun i hi => ?_, fun x hx => ?_⟩
  · have hlt := hstr.length_lt
    have hfar := hclear (c + BitVec.ofNat 32 i) (by rw [dist_add c i (by omega)]; omega)
    rcases h.mem (c + BitVec.ofNat 32 i) with heq | ⟨_, _, hnear⟩
    · exact heq
    · omega
  · have hfar := hclear x hx
    rw [hq, memory.dist_add_right (by omega) (by omega)]
    omega

/-- The tokens that were found stay as they are. -/
theorem Called.token_stays {st' : Strtok} {p : Option Word} {d : List Byte} {q : Word}
    {r : List Byte} (h : Called m a s d st' p) (hs : s.length < 2 ^ 32)
    (hsaved : st'.saved = some q) (hrest : (take_token d (some s)).2 = some r)
    (hmem : ∀ x, m' x = st'.mem x ∨ memory.dist q x < r.length) :
    Points m' p (take_token d (some s)).1 := by
  have htoken := h.token
  obtain ⟨k, hq, hk, hbefore⟩ := h.apart q r hsaved hrest
  cases hp : p with
  | none =>
    rw [hp] at htoken
    cases htok : (take_token d (some s)).1 with
    | none => trivial
    | some tok =>
      rw [htok] at htoken
      cases htoken
  | some w =>
    rw [hp] at htoken
    cases htok : (take_token d (some s)).1 with
    | none =>
      rw [htok] at htoken
      cases htoken
    | some tok =>
      rw [htok] at htoken
      obtain ⟨j, hw, hj⟩ := hbefore w tok hp htok
      refine Str.congr htoken fun i hi => ?_
      have hplace : w + BitVec.ofNat 32 i = a + BitVec.ofNat 32 (j + i) := by
        rw [hw, BitVec.add_assoc, ← BitVec.ofNat_add]
      have hdist : memory.dist a (w + BitVec.ofNat 32 i) < k := by
        rw [hplace, dist_add a _ (by omega)]
        omega
      have hfar := dist_add_right_lt (by omega) hdist
      rw [← hq] at hfar
      rcases hmem (w + BitVec.ofNat 32 i) with heq | hnear
      · exact heq
      · omega

theorem strtoks.spec (cts : List Word) (ds : List (List Byte)) (arg : Option Word) {st : Strtok}
    (harg : arg.or st.saved = some a) (h : Str st.mem a s)
    (hd : List.Forall₂ (Aside st.mem a s) cts ds) :
    ∃ st' ps, strtoks st arg cts = some (st', ps) ∧
      List.Forall₂ (Points st'.mem) ps (take_tokens (some s) ds) ∧
      ∀ x, st'.mem x = st.mem x ∨
        st'.mem x = 0 ∧ (∃ d ∈ ds, st.mem x ∈ d) ∧ memory.dist a x < s.length := by
  induction cts generalizing ds st arg a s with
  | nil =>
    cases hd
    exact ⟨st, [], rfl, .nil, fun x => .inl rfl⟩
  | cons ct cts ih =>
    cases hd with
    | @cons _ d _ ds haside hd =>
    have hshort := h.length_lt
    obtain ⟨st₁, p, hcall, hcalled⟩ := strtok.spec harg h haside.1
    have hrest := hcalled.rest
    cases hr : (take_token d (some s)).2 with
    | none =>
      have hsaved : st₁.saved = none := by
        cases hq : st₁.saved with
        | none => rfl
        | some q =>
          rw [hq, hr] at hrest
          cases hrest
      obtain ⟨ps, hps, hall⟩ := strtoks_none (m := st₁.mem) hsaved cts ds hd.length_eq
      refine ⟨st₁, p :: ps, by simp [strtoks, hcall, hps], ?_, fun x => ?_⟩
      · rw [take_tokens, hr]
        exact .cons hcalled.token hall
      · rcases hcalled.mem x with heq | ⟨hzero, hmem, hnear⟩
        · exact .inl heq
        · exact .inr ⟨hzero, ⟨d, List.mem_cons_self, hmem⟩, hnear⟩
    | some r =>
      obtain ⟨q, hsaved, hstr⟩ : ∃ q, st₁.saved = some q ∧ Str st₁.mem q r := by
        cases hq : st₁.saved with
        | none =>
          rw [hq, hr] at hrest
          cases hrest
        | some q =>
          rw [hq, hr] at hrest
          exact ⟨q, rfl, hrest⟩
      obtain ⟨k, hqk, hk, _⟩ := hcalled.apart q r hsaved hr
      have haside' : List.Forall₂ (Aside st₁.mem q r) cts ds :=
        hd.imp fun c d' hcd => hcalled.aside hshort hcd hqk hk
      obtain ⟨st', ps, hps, hall, hmem⟩ := ih ds none hsaved hstr haside'
      refine ⟨st', p :: ps, by simp [strtoks, hcall, hps], ?_, fun x => ?_⟩
      · rw [take_tokens, hr]
        refine .cons (hcalled.token_stays hshort hsaved hr fun x => ?_) hall
        exact (hmem x).imp_right fun h => h.2.2
      · rcases hmem x with heq | ⟨hzero, ⟨d', hd', hin⟩, hnear⟩
        · rw [heq]
          rcases hcalled.mem x with heq' | ⟨hzero, hmem, hnear⟩
          · exact .inl heq'
          · exact .inr ⟨hzero, ⟨d, List.mem_cons_self, hmem⟩, hnear⟩
        · refine .inr ⟨hzero, ?_⟩
          rcases hcalled.mem x with heq' | ⟨_, hmem, hnear'⟩
          · have hplace : memory.dist a x < s.length := by
              rcases Nat.lt_or_ge (memory.dist a x) k with hlt | hge
              · have hfar := dist_add_right_lt (by omega) hlt
                rw [← hqk] at hfar
                omega
              · have hdist := memory.dist_add_right (by omega) hge
                rw [← hqk] at hdist
                omega
            exact ⟨⟨d', List.mem_cons_of_mem _ hd', heq' ▸ hin⟩, hplace⟩
          · exact ⟨⟨d, List.mem_cons_self, hmem⟩, hnear'⟩

/-- `strtok` takes a string apart. Whatever delimiters each call gets, its value points at the next
token of the string, and still does after all the calls. Only delimiters in the string are
overwritten. With the same delimiters each time, the tokens are the fields between them. -/
theorem strtok_takes_apart (st : Strtok) (a : Word) (s : List Byte) (cts : List Word)
    (ds : List (List Byte)) (h : Str st.mem a s)
    (hd : List.Forall₂ (Aside st.mem a s) cts ds) :
    ∃ st' ps, strtoks st (some a) cts = some (st', ps) ∧
      List.Forall₂ (Points st'.mem) ps (take_tokens (some s) ds) ∧
      (∀ x, st'.mem x = st.mem x ∨
        st'.mem x = 0 ∧ (∃ d ∈ ds, st.mem x ∈ d) ∧ memory.dist a x < s.length) ∧
      ∀ d, ds = List.replicate cts.length d →
        List.Forall₂ (Points st'.mem) ps
          ((List.range cts.length).map fun i => (fields d s)[i]?) := by
  obtain ⟨st', ps, hps, hall, hmem⟩ := strtoks.spec cts ds (some a) rfl h hd
  refine ⟨st', ps, hps, hall, hmem, fun d hds => ?_⟩
  rw [hds, take_tokens_fields] at hall
  exact hall

/-- A memory with `a,b` at 0x100 and a comma at 0x200. -/
def comma_list : Mem := write (write (fun _ => 0) 0x100 [0x61, 0x2C, 0x62]) 0x200 [0x2C]

/-- Three calls give `a`, `b` and a null pointer. -/
theorem a_list_is_taken_apart : ∃ st' ps,
    strtoks ⟨comma_list, none⟩ (some 0x100) [0x200, 0x200, 0x200] = some (st', ps) ∧
      List.Forall₂ (Points st'.mem) ps [some [0x61], some [0x62], none] := by
  have hlist : Str comma_list 0x100 [0x61, 0x2C, 0x62] :=
    ⟨rfl, by decide, rfl, by decide, rfl, by decide, rfl⟩
  have haside : Aside comma_list 0x100 [0x61, 0x2C, 0x62] 0x200 [0x2C] := by
    refine ⟨⟨rfl, by decide, rfl⟩, fun x hx => ?_⟩
    unfold memory.dist at *
    simp only [List.length_cons, List.length_nil] at *
    bv_omega
  obtain ⟨st', ps, hps, hall, _⟩ := strtok_takes_apart ⟨comma_list, none⟩ 0x100
    [0x61, 0x2C, 0x62] [0x200, 0x200, 0x200] [[0x2C], [0x2C], [0x2C]] hlist
    (.cons haside (.cons haside (.cons haside .nil)))
  exact ⟨st', ps, hps, hall⟩

end

end os_workshop.string
