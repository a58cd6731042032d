import NandHdl.Proofs.Parsing

/-!
# What a reader looks at

A reading is followed token by token: which ones it passes, which one it reports if it fails, and that it goes the
same way wherever the same tokens come, up to the token behind them and one more.

* `Cursor.Passes`, `Cursor.Like`: tokens that are passed, and places that cannot be told apart by two tokens.
* `Parser.Traced`: **what a reading has passed**, and that it goes the same way in other streams.
* `Parser.Blames`: readers that report a token only behind words of a given kind. `Blames.bind`
* `Parser.Single`: readers that look at the current token only.
-/

namespace NandHdl

open Grammar

namespace Cursor

variable {c c' c'' d d' : Cursor} {ts us : List Token}

/-- The tokens from here on. -/
def tokens (c : Cursor) : List Token := c.current :: c.later

/-- The tokens `ts` lie between two places, and the end of the text is not among them. -/
structure Passes (c : Cursor) (ts : List Token) (c' : Cursor) : Prop where
  tokens : c.tokens = ts ++ c'.tokens
  inside : ∀ t ∈ ts, t.kind ≠ .eof

/-- Places in streams of one length that show the same token and the same next one. -/
structure Like (c d : Cursor) : Prop where
  shown : d.tokens.take 2 = c.tokens.take 2
  length : d.tokens.length = c.tokens.length

theorem tokens_ne_nil (c : Cursor) : c.tokens ≠ [] := List.cons_ne_nil c.current c.later

theorem eq_of_tokens (h : c.tokens = d.tokens) : c = d := by
  obtain ⟨t, ts⟩ := c
  obtain ⟨u, us⟩ := d
  cases h
  rfl

theorem Passes.refl (c : Cursor) : c.Passes [] c := ⟨rfl, nofun⟩

theorem Passes.trans (h : c.Passes ts c') (h' : c'.Passes us c'') : c.Passes (ts ++ us) c'' := by
  refine ⟨?_, fun t ht => ?_⟩
  · rw [h.tokens, h'.tokens, List.append_assoc]
  · exact (List.mem_append.1 ht).elim (h.inside t) (h'.inside t)

/-- On the way there is a place behind the first of the tokens. -/
theorem Passes.split (h : c.Passes (ts ++ us) c'') : ∃ c', c.Passes ts c' ∧ c'.Passes us c'' := by
  obtain ⟨t, rest, hrest⟩ := List.exists_cons_of_ne_nil
    (List.append_ne_nil_of_right_ne_nil us c''.tokens_ne_nil)
  refine ⟨⟨t, rest⟩, ⟨?_, fun u hu => h.inside u (List.mem_append_left us hu)⟩,
    ⟨hrest.symm, fun u hu => h.inside u (List.mem_append_right ts hu)⟩⟩
  rw [h.tokens, List.append_assoc, hrest]
  rfl

theorem Passes.ends (h : c.Passes ts c') (hc : c.Ends) : c'.Ends := by
  obtain ⟨t, ht, heof⟩ := hc
  have hmem : t ∈ ts ++ c'.tokens := h.tokens ▸ ht
  rcases List.mem_append.1 hmem with hts | hrest
  · exact absurd heof (h.inside t hts)
  · exact ⟨t, hrest, heof⟩

theorem Passes.length (h : c.Passes ts c') : c.remaining = ts.length + c'.remaining := by
  have hlen := congrArg List.length h.tokens
  rw [List.length_append] at hlen
  exact hlen

theorem Passes.words (h : c.Passes ts c') : c.cut.words = ts.map Token.word ++ c'.cut.words := by
  have hcut : ∀ c : Cursor, c.cut.words = (uptoEof c.tokens).map Token.word := fun c => rfl
  rw [hcut, hcut, h.tokens, ← List.map_append]
  refine congrArg (List.map Token.word) ?_
  have hinside := h.inside
  clear h
  induction ts with
  | nil => rfl
  | cons t ts ih =>
    have hhead : t.kind ≠ .eof := hinside t List.mem_cons_self
    rw [List.cons_append, uptoEof, if_neg hhead, ih fun u hu => hinside u (List.mem_cons_of_mem t hu)]
    rfl

/-- In a text with an end, the token in front of it is passed. -/
theorem passes_next (hc : c.Ends) (h : c.kind ≠ .eof) : c.Passes [c.current] c.next := by
  refine ⟨?_, fun t ht => List.mem_singleton.1 ht ▸ h⟩
  obtain ⟨t, ts⟩ := c
  cases ts with
  | cons u us => rfl
  | nil =>
    obtain ⟨v, hv, heof⟩ := hc
    rw [List.mem_singleton.1 hv] at heof
    exact absurd heof h

theorem Passes.eq_next {t : Token} (h : c.Passes [t] c') : c.current = t ∧ c' = c.next := by
  obtain ⟨u, us⟩ := c
  have htokens : u :: us = t :: (c'.current :: c'.later) := h.tokens
  cases htokens
  exact ⟨rfl, rfl⟩

theorem Passes.eq_of_nil (h : c.Passes [] c') : c' = c := eq_of_tokens h.tokens.symm

theorem Like.refl (c : Cursor) : c.Like c := ⟨rfl, rfl⟩

theorem Like.current (h : c.Like d) : d.current = c.current := by
  have hshown := congrArg List.head? h.shown
  simpa [tokens] using hshown

theorem Like.kind (h : c.Like d) : d.kind = c.kind := congrArg Token.kind h.current

theorem Like.remaining (h : c.Like d) : d.remaining = c.remaining := h.length

theorem Like.followedBy (h : c.Like d) (k : TokenKind) : d.followedBy k = c.followedBy k := by
  have hshown := h.shown
  obtain ⟨t, ts⟩ := c
  obtain ⟨u, us⟩ := d
  cases ts <;> cases us <;> simp_all [tokens, Cursor.followedBy]

/-- Places that were reached over the same tokens and are alike came from places that are alike. -/
theorem Like.of_passes (h : c'.Like d') (hc : c.Passes ts c') (hd : d.Passes ts d') : c.Like d := by
  refine ⟨?_, ?_⟩
  · rw [hc.tokens, hd.tokens, List.take_append, List.take_append]
    have htake : ∀ k ≤ 2, d'.tokens.take k = c'.tokens.take k := by
      intro k hk
      have hshown := congrArg (List.take k) h.shown
      simpa [List.take_take, Nat.min_eq_left hk] using hshown
    rw [htake _ (Nat.sub_le _ _)]
  · rw [hc.tokens, hd.tokens, List.length_append, List.length_append, h.length]

end Cursor

namespace Parser

variable {α β : Type} {p : Parser α} {f : α → Parser β} {a : α} {k : TokenKind} {c d : Cursor} {n : Nat}
variable {V W : List Word → Prop} {δ : Nat}

/-- **What a reading from `c` passed**, and that `run` does the same wherever the same tokens come in front of a
place that is alike. If it failed, it reports the token behind those, and the words passed are `V`. -/
inductive Traced (V : List Word → Prop) (run : Cursor → Except ParseError (α × Cursor)) (c : Cursor) :
    Except ParseError (α × Cursor) → Prop
  | ok {a : α} {c' : Cursor} {ts : List Token} (hpass : c.Passes ts c')
      (hagain : ∀ d d', d.Passes ts d' → c'.Like d' → run d = .ok (a, d')) : Traced V run c (.ok (a, c'))
  | error {e : ParseError} {c' : Cursor} {ts : List Token} (hpass : c.Passes ts c')
      (hpos : e.pos = c'.current.pos) (hviable : V (ts.map Token.word))
      (hagain : ∀ d d', d.Passes ts d' → c'.Like d' → ∃ e', run d = .error e') : Traced V run c (.error e)

/-- Of at most `n` tokens, `p` reports one only behind words that are `V`, and finds the same elsewhere. -/
def Blames (n : Nat) (p : Parser α) (V : List Word → Prop) : Prop :=
  ∀ c : Cursor, c.remaining ≤ n → c.Ends → Traced V p.run c (p.run c)

theorem Traced.congr {run run' : Cursor → Except ParseError (α × Cursor)} {r : Except ParseError (α × Cursor)}
    (h : Traced V run c r) (hrun : ∀ d, c.Like d → run' d = run d) : Traced V run' c r := by
  cases h with
  | ok hpass hagain =>
    exact .ok hpass fun d d' hd hlike => (hrun d (hlike.of_passes hpass hd)).trans (hagain d d' hd hlike)
  | error hpass hpos hviable hagain =>
    refine .error hpass hpos hviable fun d d' hd hlike => ?_
    rw [hrun d (hlike.of_passes hpass hd)]
    exact hagain d d' hd hlike

theorem Traced.imp {run : Cursor → Except ParseError (α × Cursor)} {r : Except ParseError (α × Cursor)}
    (h : Traced V run c r) (himp : ∀ ws, V ws → W ws) : Traced W run c r := by
  cases h with
  | ok hpass hagain => exact .ok hpass hagain
  | error hpass hpos hviable hagain => exact .error hpass hpos (himp _ hviable) hagain

theorem Blames.imp (h : Blames n p V) (himp : ∀ ws, V ws → W ws) : Blames n p W :=
  fun c hc he => (h c hc he).imp himp

theorem Blames.mono {m : Nat} (h : Blames n p V) (hm : m ≤ n) : Blames m p V :=
  fun c hc => h c (Nat.le_trans hc hm)

theorem blames_zero : Blames 0 p V := fun c hc => absurd hc (Nat.not_succ_le_zero c.later.length)

theorem Blames.pure (a : α) : Blames n (pure a) V := fun c _ _ =>
  .ok (.refl c) fun _ _ hd _ => by rw [hd.eq_of_nil]; rfl

/-- What was passed belongs to the grammar. -/
theorem Reads.passed {P : List Word → List Word → α → Prop} (h : Reads δ n p p P) {c' : Cursor}
    {ts : List Token} (hc : c.remaining ≤ n) (he : c.Ends) (hrun : p.run c = .ok (a, c'))
    (hpass : c.Passes ts c') : P (ts.map Token.word) c'.cut.words a := by
  have hread := h c (Nat.le_trans c.remaining_cut_le hc)
  rw [hrun] at hread
  generalize p.run c.cut = r at hread
  cases hread with
  | ok hlen hends hwords =>
    obtain ⟨ws, hws, hP⟩ := hwords he
    rw [hpass.words] at hws
    rwa [List.append_cancel_right hws]

/-- A reader that passed some tokens, and another one behind it. -/
theorem Traced.bind (he : c.Ends) (hp : Traced V p.run c (p.run c))
    (hf : ∀ a c' ts, p.run c = .ok (a, c') → c.Passes ts c' → c'.Ends →
      Traced (fun us => V (ts.map Token.word ++ us)) (f a).run c' ((f a).run c')) :
    Traced V (p >>= f).run c ((p >>= f).run c) := by
  have hrun : ∀ c r, p.run c = r → (p >>= f).run c = r >>= fun x => (f x.1).run x.2 := by
    rintro c r rfl
    exact StateT.run_bind p f c
  generalize hr : p.run c = r at hp
  rw [hrun c r hr]
  cases hp with
  | error hpass hpos hviable hagain =>
    refine .error hpass hpos hviable fun d d' hd hlike => ?_
    obtain ⟨e', he'⟩ := hagain d d' hd hlike
    exact ⟨e', by rw [hrun d _ he']; rfl⟩
  | @ok a c' ts hpass hagain =>
    have hrest := hf a c' ts hr hpass (hpass.ends he)
    -- a place behind both readers is reached by way of one behind the first
    have hway : ∀ {us : List Token} {c'' d d'' : Cursor}, c'.Passes us c'' → d.Passes (ts ++ us) d'' →
        c''.Like d'' → ∃ d', d'.Passes us d'' ∧ (p >>= f).run d = (f a).run d' := by
      intro us c'' d d'' hus hd hlike
      obtain ⟨d', hd, hd'⟩ := hd.split
      exact ⟨d', hd', by rw [hrun d _ (hagain d d' hd (hlike.of_passes hus hd'))]; rfl⟩
    change Traced V (p >>= f).run c ((f a).run c')
    generalize (f a).run c' = r' at hrest ⊢
    cases hrest with
    | ok hus hagain' =>
      refine .ok (hpass.trans hus) fun d d'' hd hlike => ?_
      obtain ⟨d', hd', hsame⟩ := hway hus hd hlike
      rw [hsame]
      exact hagain' d' d'' hd' hlike
    | error hus hpos hviable hagain' =>
      refine .error (hpass.trans hus) hpos (by rwa [List.map_append]) fun d d'' hd hlike => ?_
      obtain ⟨d', hd', hsame⟩ := hway hus hd hlike
      rw [hsame]
      exact hagain' d' d'' hd' hlike

/-- One reader after another. -/
theorem Blames.bind {P : List Word → α → Prop} (hreads : Reads 0 n p p fun ws _ a => P ws a) (hp : Blames n p V)
    (hf : ∀ a, Blames n (f a) fun us => ∀ ws, P ws a → V (ws ++ us)) : Blames n (p >>= f) V := by
  intro c hc he
  refine (hp c hc he).bind he fun a c' ts hrun hpass he' => ?_
  have hP := hreads.passed hc he hrun hpass
  have hlen := hpass.length
  exact (hf a c' (by omega) he').imp fun us hus => hus _ hP

/-- What is returned does not matter. -/
theorem Blames.map {g : α → β} (hp : Blames n p V) : Blames n (do return g (← p)) V := fun c hc he =>
  (hp c hc he).bind he fun a c' _ _ _ he' => Blames.pure (g a) c' (Nat.le_refl _) he'

/-- What is looked at is the same in all places that are alike. -/
theorem Blames.get_bind {f : Cursor → Parser β}
    (h : ∀ c : Cursor, ∃ p, Blames n p V ∧ ∀ d, c.Like d → (f d).run d = p.run d) : Blames n (get >>= f) V := by
  intro c hc he
  obtain ⟨p, hp, hsame⟩ := h c
  change Traced V (get >>= f).run c ((f c).run c)
  rw [hsame c (.refl c)]
  exact (hp c hc he).congr hsame

/-- The current token is the same one elsewhere. -/
theorem Blames.peek_bind {f : Token → Parser β} (h : ∀ t, Blames n (f t) V) : Blames n (peek >>= f) V :=
  fun c hc he => (h c.current c hc he).congr fun d hlike => by
    change (f d.current).run d = _
    rw [hlike.current]

/-- The number of tokens is fuel that is enough. -/
theorem Blames.remaining_bind {f : Nat → Parser β} (h : ∀ m ≤ n, ∀ i, m ≤ i → Blames m (f i) V) :
    Blames n (get >>= fun c => f c.remaining) V :=
  fun c hc he => (h c.remaining hc _ (Nat.le_refl _) c (Nat.le_refl _) he).congr fun d hlike => by
    change (f d.remaining).run d = _
    rw [hlike.remaining]

/-! ## Single tokens -/

/-- A reader that passes the current token or reports it, and looks at no other. -/
def Single (p : Parser α) : Prop :=
  ∀ c : Cursor, (c.kind ≠ .eof ∧ ∃ a, ∀ d : Cursor, d.current = c.current → p.run d = .ok (a, d.next)) ∨
    ∃ e : ParseError, e.pos = c.current.pos ∧ ∀ d : Cursor, d.current = c.current → p.run d = .error e

theorem Single.blames (h : Single p) (hV : V []) : Blames n p V := by
  intro c _ he
  rcases h c with ⟨hkind, a, hrun⟩ | ⟨e, hpos, hrun⟩
  · rw [hrun c rfl]
    refine .ok (Cursor.passes_next he hkind) fun d d' hd _ => ?_
    obtain ⟨hcurrent, rfl⟩ := hd.eq_next
    exact hrun d hcurrent
  · rw [hrun c rfl]
    exact .error (.refl c) hpos hV fun d d' hd hlike => by
      rw [hd.eq_of_nil] at hlike
      exact ⟨e, hrun d hlike.current⟩

/-- What is made of the token may still be a reason to report it. -/
theorem Single.peek_bind {f : Token → α → Parser β} (h : Single p)
    (hf : ∀ t a, (∃ b, f t a = Pure.pure b) ∨ ∃ fault, f t a = failAt t fault) :
    Single (do let t ← peek; let a ← p; f t a) := by
  have hrun : ∀ (d : Cursor) r, p.run d = r →
      (do let t ← peek; let a ← p; f t a).run d = r >>= fun x => (f d.current x.1).run x.2 := by
    rintro d r rfl
    exact StateT.run_bind p (f d.current) d
  intro c
  rcases h c with ⟨hkind, a, ha⟩ | ⟨e, hpos, he⟩
  · rcases hf c.current a with ⟨b, hb⟩ | ⟨fault, hfault⟩
    · refine .inl ⟨hkind, b, fun d hd => ?_⟩
      rw [hrun d _ (ha d hd), hd]
      change (f c.current a).run d.next = _
      rw [hb]
      rfl
    · refine .inr ⟨⟨fault, c.current.pos⟩, rfl, fun d hd => ?_⟩
      rw [hrun d _ (ha d hd), hd]
      change (f c.current a).run d.next = _
      rw [hfault]
      rfl
  · refine .inr ⟨e, hpos, fun d hd => ?_⟩
    rw [hrun d _ (he d hd)]
    rfl

theorem single_expected (what : String) : Single (expected (α := α) what) := fun c =>
  .inr ⟨⟨.expected what c.current, c.current.pos⟩, rfl, fun d hd => by rw [← hd]; rfl⟩

theorem single_expect (hk : k ≠ .eof) : Single (expect k) := by
  intro c
  by_cases hkind : c.kind = k
  · refine .inl ⟨by rwa [hkind], c.current, fun d hd => ?_⟩
    have hkind' : d.kind = k := (congrArg Token.kind hd).trans hkind
    rw [run_expect hkind', hd]
  · refine .inr ⟨⟨.expected k.name c.current, c.current.pos⟩, rfl, fun d hd => ?_⟩
    have hkind' : d.kind ≠ k := fun h => hkind ((congrArg Token.kind hd).symm.trans h)
    rw [needs_expect k d (by simpa using hkind'), hd]

theorem single_name : Single name :=
  Single.peek_bind (f := fun _ t => Pure.pure t.value) (single_expect (k := .ident) nofun) fun _ t =>
    .inl ⟨t.value, rfl⟩

theorem run_number (h : c.kind = .number) : number.run c =
    match Numeral.literal? c.current.value with
    | some v => .ok (v, c.next)
    | none => .error ⟨.invalidNumber c.current.value, c.current.pos⟩ := by
  have hrun : number.run c = (expect .number).run c >>= fun x => (match Numeral.literal? x.1.value with
      | some v => return v
      | none => failAt x.1 (.invalidNumber x.1.value) : Parser Nat).run x.2 := StateT.run_bind _ _ c
  rw [hrun, run_expect h]
  change (match Numeral.literal? c.current.value with
    | some v => return v
    | none => failAt c.current (.invalidNumber c.current.value) : Parser Nat).run c.next = _
  cases Numeral.literal? c.current.value <;> rfl

theorem single_number : Single number := by
  intro c
  by_cases hkind : c.kind = .number
  · have hrun : ∀ d : Cursor, d.current = c.current → number.run d =
        match Numeral.literal? c.current.value with
        | some v => .ok (v, d.next)
        | none => .error ⟨.invalidNumber c.current.value, c.current.pos⟩ := fun d hd => by
      rw [run_number ((congrArg Token.kind hd).trans hkind), hd]
    cases hv : Numeral.literal? c.current.value with
    | some v => exact .inl ⟨by rw [hkind]; nofun, v, fun d hd => by rw [hrun d hd, hv]⟩
    | none => exact .inr ⟨_, rfl, fun d hd => by rw [hrun d hd, hv]⟩
  · refine .inr ⟨⟨.expected "NUMBER" c.current, c.current.pos⟩, rfl, fun d hd => ?_⟩
    have hkind' : d.kind ≠ .number := fun h => hkind ((congrArg Token.kind hd).symm.trans h)
    have hneeds : Needs "NUMBER" [.number] number := (needs_expect .number).bind
    rw [hneeds d (by simpa using hkind'), hd]

theorem single_index : Single index := by
  refine single_number.peek_bind fun t v => ?_
  by_cases hv : v ≤ widthLimit
  · exact .inl ⟨v, if_pos hv⟩
  · exact .inr ⟨.indexOutOfRange v, if_neg hv⟩

/-- A token that has to be there. -/
theorem Blames.expect_bind {f : Token → Parser β} (hk : k ≠ .eof) (hV : V [])
    (hf : ∀ t, Blames (n - 1) (f t) fun us => V ((k, t.value) :: us)) : Blames n (expect k >>= f) V := by
  intro c hc he
  refine ((single_expect hk).blames hV c hc he).bind he fun t c' ts hrun hpass he' => ?_
  have hP := (reads_expect (n := n) hk).passed hc he hrun hpass
  have hlen := hpass.length
  have hone : ts.length = 1 := by
    rw [← List.length_map (f := Token.word), hP]
    rfl
  rw [hP]
  exact hf t c' (by omega) he'

theorem blames_eat (hk : k ≠ .eof) : Blames n (eat k) V := by
  intro c _ he
  by_cases hkind : c.kind = k
  · rw [run_eat hkind]
    refine .ok (Cursor.passes_next he (by rwa [hkind])) fun d d' hd _ => ?_
    obtain ⟨hcurrent, rfl⟩ := hd.eq_next
    exact run_eat ((congrArg Token.kind hcurrent).trans hkind)
  · rw [run_eat_other hkind]
    refine .ok (.refl c) fun d d' hd hlike => ?_
    rw [hd.eq_of_nil] at hlike ⊢
    exact run_eat_other (by rwa [hlike.kind])

/-- A token that may be there. -/
theorem Blames.eat_bind {f : Bool → Parser β} (hk : k ≠ .eof)
    (hf : Blames (n - 1) (f true) fun us => ∀ s, V ((k, s) :: us)) (hother : Blames n (f false) V) :
    Blames n (eat k >>= f) V := by
  intro c hc he
  refine (blames_eat hk c hc he).bind he fun b c' ts hrun hpass he' => ?_
  have hP := (reads_eat (n := n) hk).passed hc he hrun hpass
  have hlen := hpass.length
  cases b with
  | false =>
    rw [show ts.map Token.word = [] from hP]
    exact hother c' (by omega) he'
  | true =>
    obtain ⟨s, hs⟩ := hP
    have hone : ts.length = 1 := by
      rw [← List.length_map (f := Token.word), hs]
      rfl
    rw [hs]
    exact (hf c' (by omega) he').imp fun us hus => hus s

theorem blames_endOfLine (hV : V []) : Blames n endOfLine V := by
  intro c _ he
  by_cases hnewline : c.kind = .newline
  · have hrun : ∀ d : Cursor, d.kind = .newline → endOfLine.run d = .ok ((), d.next) := fun d hd => by
      rw [run_endOfLine_newline hd]
      rfl
    rw [hrun c hnewline]
    refine .ok (Cursor.passes_next he (by rw [hnewline]; nofun)) fun d d' hd _ => ?_
    obtain ⟨hcurrent, rfl⟩ := hd.eq_next
    exact hrun d ((congrArg Token.kind hcurrent).trans hnewline)
  · by_cases heof : c.kind = .eof
    · rw [run_endOfLine_eof heof]
      refine .ok (.refl c) fun d d' hd hlike => ?_
      rw [hd.eq_of_nil] at hlike ⊢
      exact run_endOfLine_eof (hlike.kind.trans heof)
    · have hks : c.kind ∉ [.newline, .eof] := by simp [hnewline, heof]
      rw [needs_endOfLine c hks]
      refine .error (.refl c) rfl hV fun d d' hd hlike => ?_
      rw [hd.eq_of_nil] at hlike
      exact ⟨_, needs_endOfLine d (by rwa [hlike.kind])⟩

/-- At the end of the text nothing more is passed. -/
theorem Traced.of_eof {run : Cursor → Except ParseError (α × Cursor)} {r : Except ParseError (α × Cursor)}
    (h : Traced V run c r) (heof : c.kind = .eof) (hW : W []) : Traced W run c r := by
  cases h with
  | ok hpass hagain => exact .ok hpass hagain
  | @error e c' ts hpass hpos hviable hagain =>
    cases ts with
    | nil => exact .error hpass hpos hW hagain
    | cons t ts =>
      have hfirst : c.current = t := (List.cons.inj hpass.tokens).1
      exact absurd (hfirst ▸ heof) (hpass.inside t List.mem_cons_self)

/-- The end of a line. -/
theorem Blames.endOfLine_bind {f : Unit → Parser β} (hV : V [])
    (hf : Blames n (f ()) fun us => ∀ s, V ((.newline, s) :: us)) : Blames n (endOfLine >>= f) V := by
  intro c hc he
  refine (blames_endOfLine hV c hc he).bind he fun _ c' ts hrun hpass he' => ?_
  have hlen := hpass.length
  have hrest := hf c' (by omega) he'
  by_cases heof : c.kind = .eof
  · rw [run_endOfLine_eof heof] at hrun
    cases hrun
    have hnil : ts = [] := List.append_cancel_right (hpass.tokens.symm.trans (List.nil_append _).symm)
    rw [hnil]
    exact hrest.of_eof heof hV
  · have hP := (reads_endOfLine (n := n)).passed hc he hrun hpass
    generalize hws : ts.map Token.word = ws at hP
    revert hP
    generalize hvs : c'.cut.words = vs
    intro hP
    cases hP with
    | newline s rest => exact hrest.imp fun us hus => hus s
    | eof s rest =>
      have hnil : ts = [] := List.map_eq_nil_iff.1 hws
      rw [hnil] at hpass
      have hkind : c'.current.kind = .eof := congrArg Prod.fst (List.cons.inj hvs).1
      rw [hpass.eq_of_nil] at hkind
      exact absurd hkind heof

end Parser

end NandHdl
