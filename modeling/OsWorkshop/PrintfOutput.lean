-- The output of the formatter. Whatever takes the characters, the calls of the engine are
-- those of one text, and vsnprintf keeps as much of that text as its buffer holds.
import OsWorkshop.Blocks
import OsWorkshop.PrintfEngine

open os_workshop.memory

namespace os_workshop.printf

/-! ## One text for every output

The lengths are `int`s, so a text of 2^31 characters or more is left out. -/

section

variable {τ : Type} (out : Output τ) (R : Text → τ → Prop)

/-- The output takes the text so far on, and stands to it in `R`. -/
structure Output.Takes : Prop where
  call : ∀ t s str, R t s → str.length < 2 ^ 31 →
    (out.call str s).1 = str.length ∧ R { t with chars := t.chars ++ str } (out.call str s).2
  store : ∀ t s ptr bs, R t s → R { t with stores := t.stores ++ [(ptr, bs)] } (out.store ptr bs s)

/-- A run that collects the text, and one that puts it out. -/
structure Agree (r : Run Text) (q : Run τ) : Prop where
  err : r.err = q.err
  written : r.chars_written = q.chars_written
  counted : r.chars_written = BitVec.ofNat 32 r.state.chars.length
  state : R r.state q.state

def Run.size (r : Run Text) : Nat := r.state.chars.length

/-- What `f` does to a text, `g` does to the output. The text only grows. -/
def Follows (f : Run Text → Except (Stop Text) (Run Text))
    (g : Run τ → Except (Stop τ) (Run τ)) : Prop :=
  ∀ r r', f r = .ok r' → r.size ≤ r'.size ∧
    (r'.size < 2 ^ 31 → ∀ q, Agree R r q → ∃ q', g q = .ok q' ∧ Agree R r' q')

/-- The same of a step that takes arguments, and leaves others. -/
def FollowsWith (f : Run Text → Except (Stop Text) (List Arg × Run Text))
    (g : Run τ → Except (Stop τ) (List Arg × Run τ)) : Prop :=
  ∀ r ap r', f r = .ok (ap, r') → r.size ≤ r'.size ∧
    (r'.size < 2 ^ 31 → ∀ q, Agree R r q → ∃ q', g q = .ok (ap, q') ∧ Agree R r' q')

/-- What reads arguments, or fills the buffer of a number, does not depend on the output. -/
def Same {α : Type} (x : Except (Stop Text) α) (y : Except (Stop τ) α) : Prop :=
  ∀ a, x = .ok a → y = .ok a

end

section

variable {τ : Type} {out : Output τ} {R : Text → τ → Prop}
variable {f f' : Run Text → Except (Stop Text) (Run Text)}
variable {g g' : Run τ → Except (Stop τ) (Run τ)}

theorem bind_ok {ε α β : Type} {x : Except ε α} {k : α → Except ε β} {b : β}
    (h : x >>= k = .ok b) : ∃ a, x = .ok a ∧ k a = .ok b := by
  cases x with
  | error e => cases h
  | ok a => exact ⟨a, rfl, h⟩

theorem Follows.refl : Follows R .ok (.ok : Run τ → Except (Stop τ) (Run τ)) := by
  intro r r' h
  cases h
  exact ⟨Nat.le_refl _, fun _ q hq => ⟨q, rfl, hq⟩⟩

theorem Follows.bind (h : Follows R f g) (h' : Follows R f' g') :
    Follows R (fun r => f r >>= f') (fun q => g q >>= g') := by
  intro r r'' hr
  obtain ⟨r', hr', hr''⟩ := bind_ok hr
  obtain ⟨hsize, hgo⟩ := h r r' hr'
  obtain ⟨hsize', hgo'⟩ := h' r' r'' hr''
  refine ⟨hsize.trans hsize', fun hlt q hq => ?_⟩
  obtain ⟨q', hq', hagree⟩ := hgo (by omega) q hq
  obtain ⟨q'', hq'', hagree'⟩ := hgo' hlt q' hagree
  refine ⟨q'', ?_, hagree'⟩
  simp only [hq']
  exact hq''

theorem Follows.err {f : Int → Run Text → Except (Stop Text) (Run Text)}
    {g : Int → Run τ → Except (Stop τ) (Run τ)} (h : ∀ e, Follows R (f e) (g e)) :
    Follows R (fun r => f r.err r) (fun q => g q.err q) := by
  intro r r' hr
  obtain ⟨hsize, hgo⟩ := h r.err r r' hr
  refine ⟨hsize, fun hlt q hq => ?_⟩
  simpa only [← hq.err] using hgo hlt q hq

theorem Follows.ite {p : Prop} [Decidable p] (h : p → Follows R f g) (h' : ¬ p → Follows R f' g') :
    Follows R (fun r => if p then f r else f' r) (fun q => if p then g q else g' q) := by
  by_cases hp : p
  · simpa [hp] using h hp
  · simpa [hp] using h' hp

theorem Follows.under (h : Follows R f g) {p : Prop} [Decidable p] :
    Follows R (printf.under p f) (printf.under p g) :=
  .ite (fun _ => h) (fun _ => .refl)

theorem FollowsWith.ite {p : Prop} [Decidable p]
    {f f' : Run Text → Except (Stop Text) (List Arg × Run Text)}
    {g g' : Run τ → Except (Stop τ) (List Arg × Run τ)}
    (h : p → FollowsWith R f g) (h' : ¬ p → FollowsWith R f' g') :
    FollowsWith R (fun r => if p then f r else f' r) (fun q => if p then g q else g' q) := by
  by_cases hp : p
  · simpa [hp] using h hp
  · simpa [hp] using h' hp

theorem Follows.leave (h : Follows R f g) (ap : List Arg) :
    FollowsWith R (fun r => do return (ap, ← f r)) (fun q => do return (ap, ← g q)) := by
  intro r ap' r' hr
  obtain ⟨a, ha, heq⟩ := bind_ok hr
  cases heq
  obtain ⟨hsize, hgo⟩ := h r r' ha
  refine ⟨hsize, fun hlt q hq => ?_⟩
  obtain ⟨q', hq', hagree⟩ := hgo hlt q hq
  refine ⟨q', ?_, hagree⟩
  simp only [hq']
  rfl

/-- After the same value, each goes on. -/
theorem Same.bind {α : Type} {x : Except (Stop Text) α} {y : Except (Stop τ) α} (h : Same x y)
    {f : α → Run Text → Except (Stop Text) (Run Text)} {g : α → Run τ → Except (Stop τ) (Run τ)}
    (hf : ∀ a, Follows R (f a) (g a)) :
    Follows R (fun r => x >>= fun a => f a r) (fun q => y >>= fun a => g a q) := by
  intro r r' hr
  obtain ⟨a, ha, hr'⟩ := bind_ok hr
  rw [h a ha]
  exact hf a r r' hr'

theorem Same.bindWith {α : Type} {x : Except (Stop Text) α} {y : Except (Stop τ) α} (h : Same x y)
    {f : α → Run Text → Except (Stop Text) (List Arg × Run Text)}
    {g : α → Run τ → Except (Stop τ) (List Arg × Run τ)} (hf : ∀ a, FollowsWith R (f a) (g a)) :
    FollowsWith R (fun r => x >>= fun a => f a r) (fun q => y >>= fun a => g a q) := by
  intro r ap r' hr
  obtain ⟨a, ha, hr'⟩ := bind_ok hr
  rw [h a ha]
  exact hf a r ap r' hr'

theorem FollowsWith.bind {f : Run Text → Except (Stop Text) (List Arg × Run Text)}
    {g : Run τ → Except (Stop τ) (List Arg × Run τ)}
    {f' : List Arg → Run Text → Except (Stop Text) (Run Text)}
    {g' : List Arg → Run τ → Except (Stop τ) (Run τ)}
    (h : FollowsWith R f g) (h' : ∀ ap, Follows R (f' ap) (g' ap)) :
    Follows R (fun r => f r >>= fun a => f' a.1 a.2) (fun q => g q >>= fun a => g' a.1 a.2) := by
  intro r r'' hr
  obtain ⟨⟨ap, r'⟩, hr', hr''⟩ := bind_ok hr
  obtain ⟨hsize, hgo⟩ := h r ap r' hr'
  obtain ⟨hsize', hgo'⟩ := h' ap r' r'' hr''
  refine ⟨hsize.trans hsize', fun hlt q hq => ?_⟩
  obtain ⟨q', hq', hagree⟩ := hgo (by omega) q hq
  obtain ⟨q'', hq'', hagree'⟩ := hgo' hlt q' hagree
  refine ⟨q'', ?_, hagree'⟩
  simp only [hq']
  exact hq''

end

/-! ## The engine -/

section

variable {τ : Type}

theorem same_word (ap : List Arg) : Same (τ := τ) (va_word ap) (va_word ap) := by
  intro a ha
  rcases ap with _ | ⟨_ | _ | _, ap⟩ <;> cases ha
  rfl

theorem same_long_long (ap : List Arg) : Same (τ := τ) (va_long_long ap) (va_long_long ap) := by
  intro a ha
  rcases ap with _ | ⟨_ | _ | _, ap⟩ <;> cases ha
  rfl

theorem same_str (ap : List Arg) : Same (τ := τ) (va_str ap) (va_str ap) := by
  intro a ha
  rcases ap with _ | ⟨_ | _ | _, ap⟩ <;> cases ha
  rfl

theorem same_defined {α : Type} (x : Option α) : Same (τ := τ) (defined x) (defined x) := by
  intro a ha
  rcases x with _ | x <;> cases ha
  rfl

theorem Same.map {α β : Type} {x : Except (Stop Text) α} {y : Except (Stop τ) α} (h : Same x y)
    (k : α → β) : Same (do return k (← x)) (do return k (← y)) := by
  intro b hb
  obtain ⟨a, ha, heq⟩ := bind_ok hb
  rw [h a ha]
  cases heq
  rfl

theorem Same.ite {α : Type} {p : Prop} [Decidable p] {x x' : Except (Stop Text) α}
    {y y' : Except (Stop τ) α} (h : Same x y) (h' : Same x' y') :
    Same (if p then x else x') (if p then y else y') := by
  split <;> assumption

theorem same_signed (flags : Flags) (ap : List Arg) :
    Same (τ := τ) (signed_arg flags ap) (signed_arg flags ap) := by
  unfold signed_arg
  repeat' apply Same.ite
  all_goals first
    | exact same_word ap
    | exact (same_word ap).map _
    | exact (same_long_long ap).map _

theorem same_unsigned (flags : Flags) (ap : List Arg) :
    Same (τ := τ) (unsigned_arg flags ap) (unsigned_arg flags ap) := by
  unfold unsigned_arg
  repeat' apply Same.ite
  all_goals first
    | exact same_word ap
    | exact (same_word ap).map _
    | exact (same_long_long ap).map _

variable {out : Output τ} {R : Text → τ → Prop} (h : out.Takes R)
include h

theorem follows_OUTPUT_STRING (str : List Byte) :
    Follows R (OUTPUT_STRING collect str) (OUTPUT_STRING out str) := by
  intro r r' hr
  unfold OUTPUT_STRING collect at hr
  simp only [Int.natCast_nonneg, not_lt.mpr, if_false] at hr
  cases hr
  refine ⟨by simp [Run.size], fun hlt q hq => ?_⟩
  have hlen : str.length < 2 ^ 31 := by
    simp only [Run.size, List.length_append] at hlt
    omega
  obtain ⟨hval, hR⟩ := h.call _ _ str hq.state hlen
  refine ⟨⟨str.length, q.chars_written + BitVec.ofInt 32 str.length, (out.call str q.state).2⟩,
    ?_, rfl, ?_, ?_, hR⟩
  · unfold OUTPUT_STRING
    simp [hval]
  · simp [hq.written]
  · simp [hq.counted, BitVec.ofNat_add]

theorem follows_OUTPUT_CHAR (c : Byte) : Follows R (OUTPUT_CHAR collect c) (OUTPUT_CHAR out c) :=
  follows_OUTPUT_STRING h [c]

theorem follows_pad (c : Byte) (n : Nat) : Follows R (pad collect c n) (pad out c n) := by
  induction n with
  | zero => exact Follows.refl
  | succ n ih => exact (follows_OUTPUT_CHAR h c).bind ih

theorem follows_output_string (f : Format) (signchar : Byte) (s : List Byte) :
    Follows R (output_string collect f signchar s) (output_string out f signchar s) := by
  apply Follows.ite
  · intro _
    apply (follows_OUTPUT_STRING h s).bind
    exact Follows.err
      (f := fun e => pad collect (chr ' ') (f.format_num.toNat - (BitVec.ofInt 32 e).toNat))
      (g := fun e => pad out (chr ' ') (f.format_num.toNat - (BitVec.ofInt 32 e).toNat))
      fun e => follows_pad h _ _
  · intro _
    apply (follows_OUTPUT_CHAR h _).under.bind
    apply (follows_pad h _ _).bind
    exact (follows_OUTPUT_CHAR h _).under.bind (follows_OUTPUT_STRING h s)

theorem follows_decimal (f : Format) (n : Word) :
    Follows R (decimal collect f n) (decimal out f n) :=
  (same_defined _).bind fun a => follows_output_string h f a.2 a.1

theorem follows_hex (f : Format) (ap : List Arg) :
    FollowsWith R (hex collect f ap) (hex out f ap) := by
  refine (same_unsigned f.flags ap).bindWith fun a => (same_defined _).bindWith fun s => ?_
  have hzero := (follows_OUTPUT_CHAR h (chr '0')).under (p := f.flags.ALTFLAG)
  have hx := (follows_OUTPUT_CHAR h (if f.flags.CAPSFLAG then chr 'X' else chr 'x')).under
    (p := f.flags.ALTFLAG)
  simpa only [bind_assoc] using (hzero.bind (hx.bind (follows_output_string h f 0 s))).leave a.2

theorem follows_store (f : Format) (ap : List Arg) (ptr : Word) :
    FollowsWith R
      (fun r => .ok (ap, { r with
        state := collect.store ptr (count_octets f.flags r.chars_written) r.state }))
      (fun q => .ok (ap, { q with
        state := out.store ptr (count_octets f.flags q.chars_written) q.state })) := by
  intro r ap' r' hr
  cases hr
  refine ⟨Nat.le_refl _, fun _ q hq => ⟨_, rfl, hq.err, hq.written, hq.counted, ?_⟩⟩
  rw [← hq.written]
  exact h.store _ _ _ _ hq.state

theorem follows_convert (f : Format) (c : Byte) (ap : List Arg) :
    FollowsWith R (convert collect f c ap) (convert out f c ap) := by
  unfold convert
  apply FollowsWith.ite
  · exact fun _ => (follows_OUTPUT_CHAR h _).leave ap
  intro _
  apply FollowsWith.ite
  · exact fun _ => (same_word ap).bindWith fun a => (follows_OUTPUT_CHAR h _).leave a.2
  intro _
  apply FollowsWith.ite
  · exact fun _ => (same_str ap).bindWith fun a => (follows_output_string h _ _ _).leave a.2
  intro _
  apply FollowsWith.ite
  · exact fun _ => (same_signed _ ap).bindWith fun a => (follows_decimal h _ _).leave a.2
  intro _
  apply FollowsWith.ite
  · exact fun _ => (same_unsigned _ ap).bindWith fun a => (follows_decimal h _ _).leave a.2
  intro _
  iterate 3
    apply FollowsWith.ite
    · exact fun _ => follows_hex h _ ap
    intro _
  apply FollowsWith.ite
  · exact fun _ => (same_word ap).bindWith fun a => follows_store h f a.2 a.1
  intro _
  simpa only [bind_assoc] using
    ((follows_OUTPUT_CHAR h (chr '%')).bind (follows_OUTPUT_CHAR h c)).leave ap

theorem follows_engine (fmt : List Byte) (m : Mode) (ap : List Arg) :
    Follows R (engine collect fmt m ap) (engine out fmt m ap) := by
  induction fmt generalizing m ap with
  | nil =>
    cases m with
    | regular s => exact follows_OUTPUT_STRING h s
    | format f => exact .refl
  | cons c fmt ih =>
    cases m with
    | regular s =>
      apply Follows.ite
      · exact fun _ => (follows_OUTPUT_STRING h s).bind (ih _ ap)
      · exact fun _ => ih _ ap
    | format f =>
      cases hc : next_format f c with
      | some f' =>
        rw [engine_next collect hc, engine_next out hc]
        exact ih _ ap
      | none =>
        rw [engine_convert collect hc, engine_convert out hc]
        exact (follows_convert h f c ap).bind fun ap' => ih _ ap'

end

/-! ## vsnprintf -/

section

variable {m : Mem} {str len : Word} {t : Text} {a : output_args}

/-- The stores of a text, none of them in the buffer. -/
def Text.Apart (t : Text) (str len : Word) : Prop :=
  ∀ s ∈ t.stores, Clear s.1 s.2.length str len.toNat

/-- The buffer holds what fits of the text so far. -/
structure Holds (m : Mem) (str len : Word) (t : Text) (a : output_args) : Prop where
  start : a.outstr = str
  room : a.len = len
  pos : a.pos.toNat = min t.chars.length len.toNat
  mem : t.Apart str len → a.mem = write (pokes m t.stores) str (t.chars.take len.toNat)

theorem Holds.at_pos (h : Holds m str len t a) (hlt : t.chars.length ≤ len.toNat) :
    a.pos = BitVec.ofNat 32 t.chars.length := by
  have hpos := h.pos
  have hlen := len.isLt
  apply BitVec.eq_of_toNat_eq
  rw [BitVec.toNat_ofNat]
  omega

theorem Holds.put (h : Holds m str len t a) (c : Byte) :
    Holds m str len { t with chars := t.chars ++ [c] } (a.put c) := by
  have hpos := h.pos
  have hlen := len.isLt
  have hroom := h.room
  unfold output_args.put
  split
  · rename_i hlt
    rw [hroom, BitVec.lt_def] at hlt
    have hlt : t.chars.length < len.toNat := by omega
    have hat := h.at_pos (by omega)
    refine ⟨h.start, hroom, ?_, fun happ => ?_⟩
    · simp only [BitVec.toNat_add, List.length_append, List.length_singleton]
      simp
      omega
    · simp only
      rw [h.mem happ, h.start, hat, List.take_of_length_le (by omega),
        List.take_of_length_le (by simp; omega), write_append _ _ _ _ (by simp; omega)]
  · rename_i hge
    rw [hroom, BitVec.lt_def] at hge
    have hle : len.toNat ≤ t.chars.length := by omega
    refine ⟨h.start, hroom, by rw [List.length_append]; omega, fun happ => ?_⟩
    rw [h.mem happ, List.take_append_of_le_length hle]

theorem Holds.puts (h : Holds m str len t a) (s : List Byte) :
    Holds m str len { t with chars := t.chars ++ s } (s.foldl output_args.put a) := by
  induction s generalizing t a with
  | nil => simpa using h
  | cons c s ih => simpa using ih (h.put c)

theorem Holds.store (h : Holds m str len t a) (ptr : Word) (bs : List Byte) :
    Holds m str len { t with stores := t.stores ++ [(ptr, bs)] }
      { a with mem := write a.mem ptr bs } := by
  refine ⟨h.start, h.room, h.pos, fun happ => ?_⟩
  have hclear : Clear ptr bs.length str len.toNat := happ (ptr, bs) (by simp)
  rw [h.mem fun s hs => happ s (List.mem_append_left _ hs), pokes_append]
  apply write_comm
  intro x hx
  rw [List.length_take]
  have := hclear x hx
  omega

theorem toInt_of_small {n : Nat} (h : n < 2 ^ 31) : (BitVec.ofNat 32 n).toInt = n := by
  rw [BitVec.toInt_eq_toNat_of_lt (by rw [BitVec.toNat_ofNat]; omega), BitVec.toNat_ofNat]
  omega

theorem takes_vsnprintf (m : Mem) (str len : Word) : _vsnprintf_output.Takes (Holds m str len) where
  call t a s h hs := by
    refine ⟨?_, h.puts s⟩
    simp only [_vsnprintf_output]
    exact toInt_of_small hs
  store t a ptr bs h := h.store ptr bs

end

theorem text_run {fmt : List Byte} {ap : List Arg} {t : Text} (h : text fmt ap = some t) :
    ∃ r, engine collect (c_str fmt) (.regular []) ap (.start ⟨[], []⟩) = .ok r ∧ r.state = t := by
  unfold text at h
  rcases he : engine collect (c_str fmt) (.regular []) ap (.start ⟨[], []⟩) with e | r
  · rw [he] at h
    cases h
  · rw [he] at h
    cases h
    exact ⟨r, rfl, rfl⟩

/-- The last octet of `vsnprintf`. -/
theorem Holds.ends (h : Holds m str len t a) (happ : t.Apart str len)
    (hlt : t.chars.length < 2 ^ 31) :
    (if len ≤ a.pos then write a.mem (str + (len - 1)) [0]
      else write a.mem (str + BitVec.ofInt 32 (t.chars.length : Int)) [0]) =
    if len = 0 then write (pokes m t.stores) (str - 1) [0]
    else write (pokes m t.stores) str (t.chars.take (len.toNat - 1) ++ [0]) := by
  have hpos := h.pos
  have hlen := len.isLt
  rw [h.mem happ]
  by_cases h0 : len = 0
  · subst h0
    simp [BitVec.sub_eq_add_neg]
  · have hne : len.toNat ≠ 0 := fun he => h0 (BitVec.eq_of_toNat_eq (by simpa using he))
    rw [if_neg h0]
    split <;> rename_i hle <;> rw [BitVec.le_def] at hle
    · -- the NUL is put over the last character that went in
      have hlast : len - 1 = BitVec.ofNat 32 (len.toNat - 1) := by bv_omega
      rw [hlast, write_last _ _ _ _ _ (by omega) (by rw [List.length_take]; omega), List.take_take,
        Nat.min_eq_left (by omega)]
    · rw [List.take_of_length_le (by omega), List.take_of_length_le (by omega),
        write_append _ _ _ _ (by simp; omega), BitVec.ofInt_natCast]

theorem vsnprintf_text (m : Mem) (str len : Word) (fmt : List Byte) (ap : List Arg)
    (t : Text) (ht : text fmt ap = some t) (hlen : t.chars.length < 2 ^ 31)
    (happ : t.Apart str len) :
    vsnprintf m str len fmt ap = some ((t.chars.length : Int),
      if len = 0 then write (pokes m t.stores) (str - 1) [0]
      else write (pokes m t.stores) str (t.chars.take (len.toNat - 1) ++ [0])) := by
  obtain ⟨r, hr, rfl⟩ := text_run ht
  have hfollow := (follows_engine (takes_vsnprintf m str len) _ _ _ _ _ hr).2 hlen
  have hstart : Holds m str len ⟨[], []⟩ ⟨str, len, 0, m⟩ :=
    ⟨rfl, rfl, by simp, fun _ => by simp⟩
  obtain ⟨q, hq, hagree⟩ := hfollow (.start ⟨str, len, 0, m⟩) ⟨rfl, rfl, rfl, hstart⟩
  have hends := hagree.state.ends happ hlen
  have hval : q.chars_written.toInt = r.state.chars.length := by
    rw [← hagree.written, hagree.counted, toInt_of_small hlen]
  unfold vsnprintf _printf_engine
  simp only [hq, Option.bind_eq_bind, Option.bind_some, hval]
  rw [← hends]
  split <;> rfl

/-- `vsnprintf` returns the length of the whole text, and leaves in the buffer as much of the
text as goes in, and a NUL. With a length of zero the NUL goes in front of the buffer. -/
theorem vsnprintf_keeps_what_fits (m : Mem) (str len : Word) (fmt : List Byte) (ap : List Arg)
    (t : Text) (ht : text fmt ap = some t) (hlen : t.chars.length < 2 ^ 31)
    (happ : t.Apart str len) :
    vsnprintf m str len fmt ap = some ((t.chars.length : Int),
      if len = 0 then write (pokes m t.stores) (str - 1) [0]
      else write (pokes m t.stores) str (t.chars.take (len.toNat - 1) ++ [0])) :=
  vsnprintf_text m str len fmt ap t ht hlen happ

/-- Of the five characters of `1234` and a newline, a buffer of three takes two. -/
theorem two_of_five_characters_fit :
    vsnprintf (fun _ => 0) 0x1000 3 ("%d\n".toList.map chr) [.word 1234] = some (5,
      if (3 : Word) = 0 then write (fun _ => 0) (0x1000 - 1) [0]
      else write (fun _ => 0) 0x1000 (("1234\n".toList.map chr).take 2 ++ [0])) :=
  vsnprintf_keeps_what_fits (fun _ => 0) 0x1000 3 _ _ ⟨"1234\n".toList.map chr, []⟩ (by rfl)
    (by decide) (by simp [Text.Apart])

end os_workshop.printf
