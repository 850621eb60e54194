import Hop.Runner.Docker

/-!
# Frames and objects, whatever the chunks

What `Demux` and `JsonStream` give on for the streams that the daemon sends. For a sequence of log
frames that is, by stream, what `Lines` makes of the payloads (`run_frames`). For JSON objects with
white space between them it is the objects (`feed_objects`): nothing that stands inside an object
closes it (`Keeps`).

`delivers_iff` puts both together. The objects are always right; the log lines are, iff no line that
ends with a newline is as long as a multiple of `maxLine`.
-/

namespace Hop.Runner

open Types.Json (Value Rules Denotes ValueText Items Pair Pairs Ws NumberText isWs isPlain quote
  backslash comma colon openBrace closeBrace openBracket closeBracket minus dot)

namespace Demux

/-! ### Frames -/

/-- A number of 32 bits, the first byte first. -/
def be32 (n : ℕ) : Bytes :=
  [UInt8.ofNat (n / 2 ^ 24), UInt8.ofNat (n / 2 ^ 16), UInt8.ofNat (n / 2 ^ 8), UInt8.ofNat n]

/-- The head of a frame. -/
def frameHead (st : Stream) (size : ℕ) : Bytes :=
  (if st = .stderr then 2 else 1) :: 0 :: 0 :: 0 :: be32 size

/-- A log frame: its head, and the payload. -/
def frame (f : Stream × Bytes) : Bytes := frameHead f.1 f.2.length ++ f.2

/-- The payloads of a stream, one after the other. -/
def payload (st : Stream) (fs : List (Stream × Bytes)) : Bytes :=
  ((fs.filter (·.1 = st)).map Prod.snd).flatten

theorem be32_value {n : ℕ} (h : n ≤ maxLogFrame) :
    (((UInt8.ofNat (n / 2 ^ 24)).toNat * 256 + (UInt8.ofNat (n / 2 ^ 16)).toNat) * 256 +
      (UInt8.ofNat (n / 2 ^ 8)).toNat) * 256 + (UInt8.ofNat n).toNat = n := by
  simp only [maxLogFrame] at h
  simp only [UInt8.toNat_ofNat']
  omega

theorem header_frameHead (st : Stream) {n : ℕ} (h : n ≤ maxLogFrame)
    (h8 : (frameHead st n).length = 8) :
    header (frameHead st n) h8 = .ok (n, decide (st = .stderr)) := by
  have hvalue := be32_value h
  have hsize : ¬ maxLogFrame < n := Nat.not_lt.mpr h
  cases st with
  | stdout =>
    simp only [frameHead, be32, header, hvalue, hsize]
    rfl
  | stderr =>
    simp only [frameHead, be32, header, hvalue, hsize]
    rfl

/-- Between two frames. -/
def Idle (d : Demux) : Prop := d.head = [] ∧ d.left = 0

/-- What a frame makes of the reader. -/
def received (d : Demux) (f : Stream × Bytes) : Lines → Demux :=
  (d.opened (f.2.length, f.1 = .stderr)).took f.2.length

/-- The pieces of lines that a frame gives on, with their stream. -/
def frames : Transducer Demux (Stream × Bytes) (Stream × Bytes) where
  next d f :=
    ((Lines.cutter.run (d.lines f.1) f.2).1.map (Prod.mk f.1),
      d.received f (Lines.cutter.run (d.lines f.1) f.2).2)

theorem idle_received (d : Demux) (f : Stream × Bytes) (l : Lines) : (d.received f l).Idle :=
  ⟨rfl, Nat.sub_self _⟩

theorem lines_received (d : Demux) (f : Stream × Bytes) (l : Lines) (st : Stream) :
    (d.received f l).lines st = if f.1 = st then l else d.lines st := by
  obtain ⟨_ | _, c⟩ := f
  · cases st with
    | stdout => rfl
    | stderr => rfl
  · cases st with
    | stdout => rfl
    | stderr => rfl

section

variable {m : Type → Type} [Monad m] [LawfulMonad m] (sink : Stream → String → m Unit)

/-- One frame. -/
theorem foldlM_frame {d : Demux} (hd : d.Idle) {f : Stream × Bytes}
    (hsize : f.2.length ≤ maxLogFrame) :
    (frame f).foldlM (step sink) d =
      ExceptT.lift (Transducer.give (fun x => sink x.1 (fromUtf8Lossy x.2)) (frames.next d f)) := by
  obtain ⟨st, c⟩ := f
  have h8 : (d.head ++ frameHead st c.length).length = 8 := by
    rw [hd.1]
    rfl
  have hheader : header (d.head ++ frameHead st c.length) h8 =
      .ok (c.length, decide (st = .stderr)) := by
    have hsame : d.head ++ frameHead st c.length = frameHead st c.length := by
      rw [hd.1, List.nil_append]
    simp only [hsame]
    exact header_frameHead st hsize rfl
  have hok : ∀ x : ℕ × Bool, (ExceptT.mk (pure (.ok x)) : ExceptT String m (ℕ × Bool)) = pure x :=
    fun _ => rfl
  have hstream : (d.opened (c.length, decide (st = .stderr))).stream = st := by
    cases st with
    | stdout => rfl
    | stderr => rfl
  have hlines : (d.opened (c.length, decide (st = .stderr))).lines st = d.lines st := by
    cases st with
    | stdout => rfl
    | stderr => rfl
  have hgive := Transducer.give_map (Prod.mk st) (d.received (st, c))
    (fun x : Stream × Bytes => sink x.1 (fromUtf8Lossy x.2)) (Lines.cutter.run (d.lines st) c)
  rw [frame, List.foldlM_append, foldlM_header sink hd.2 h8, hheader, hok, pure_bind, pure_bind,
    foldlM_payload sink (le_refl _), hstream, hlines, frames]
  dsimp only
  rw [hgive, lift_bind]
  simp only [ExceptT.lift_pure]
  rfl

/-- **Frames, one after the other.** -/
theorem foldlM_frames {d : Demux} (hd : d.Idle) {fs : List (Stream × Bytes)}
    (hsize : ∀ f ∈ fs, f.2.length ≤ maxLogFrame) :
    (fs.map frame).flatten.foldlM (step sink) d =
      ExceptT.lift (Transducer.give (fun x => sink x.1 (fromUtf8Lossy x.2)) (frames.run d fs)) := by
  induction fs generalizing d with
  | nil =>
    rw [List.map_nil, List.flatten_nil, List.foldlM_nil, Transducer.run, Transducer.give_nil,
      ExceptT.lift_pure]
  | cons f fs ih =>
    have hidle : (frames.next d f).2.Idle := idle_received d f _
    -- the state behind a frame does not depend on the callback
    have hstate : ∀ (r : List (Stream × Bytes) × Demux) (k : Demux → ExceptT String m Demux),
        (ExceptT.lift (Transducer.give (fun x => sink x.1 (fromUtf8Lossy x.2)) r) >>= k) =
          (ExceptT.lift (forM r.1 fun x => sink x.1 (fromUtf8Lossy x.2)) >>= fun _ => k r.2) := by
      intro r k
      rw [Transducer.give, lift_bind, bind_assoc]
      simp only [ExceptT.lift_pure, pure_bind]
    rw [List.map_cons, List.flatten_cons, List.foldlM_append,
      foldlM_frame sink hd (hsize f List.mem_cons_self), hstate,
      ih hidle fun g hg => hsize g (List.mem_cons_of_mem f hg), Transducer.give_run_cons, lift_bind,
      hstate]

/-- What `finish` gives on. -/
def last (d : Demux) : List (Stream × Bytes) :=
  d.out.last.map (Prod.mk .stdout) ++ d.err.last.map (Prod.mk .stderr)

theorem finish_eq (d : Demux) :
    d.finish sink = forM d.last fun x => sink x.1 (fromUtf8Lossy x.2) := by
  rw [finish, last, List.forM_append, List.forM_map, List.forM_map, Lines.finish_eq,
    Lines.finish_eq]

end

/-- Each stream has the lines of its own payloads. -/
theorem run_frames (d : Demux) (fs : List (Stream × Bytes)) (st : Stream) :
    ((frames.run d fs).1.filter (·.1 = st)).map Prod.snd =
        (Lines.cutter.run (d.lines st) (payload st fs)).1 ∧
      (frames.run d fs).2.lines st = (Lines.cutter.run (d.lines st) (payload st fs)).2 := by
  induction fs generalizing d with
  | nil => exact ⟨rfl, rfl⟩
  | cons f fs ih =>
    obtain ⟨hlog, hlines⟩ := ih (frames.next d f).2
    have hnext : (frames.next d f).2.lines st =
        if f.1 = st then (Lines.cutter.run (d.lines f.1) f.2).2 else d.lines st :=
      lines_received d f _ st
    rw [hnext] at hlog hlines
    rw [Transducer.run]
    dsimp only
    rw [List.filter_append, List.map_append, hlog, hlines]
    by_cases hst : f.1 = st
    · have hpayload : payload st (f :: fs) = f.2 ++ payload st fs := by
        rw [payload, List.filter_cons_of_pos (by simpa using hst)]
        rfl
      have hown : ((frames.next d f).1.filter (·.1 = st)).map Prod.snd =
          (Lines.cutter.run (d.lines f.1) f.2).1 := by
        rw [frames]
        simp [List.filter_map, Function.comp_def, hst]
      rw [if_pos hst, hown, hpayload, Transducer.run_append, hst]
      exact ⟨rfl, rfl⟩
    · have hpayload : payload st (f :: fs) = payload st fs := by
        rw [payload, List.filter_cons_of_neg (by simpa using hst)]
        rfl
      have hother : ((frames.next d f).1.filter (·.1 = st)).map Prod.snd = [] := by
        rw [frames]
        simp [List.filter_map, Function.comp_def, hst]
      rw [if_neg hst, hother, hpayload, List.nil_append]
      exact ⟨rfl, rfl⟩

/-! ### What is delivered -/

/-- A callback that notes what it gets. -/
def note (st : Stream) (text : String) : StateM (List (Stream × String)) Unit :=
  modify (· ++ [(st, text)])

/-- A stream in chunks: the result, and what the callback got. -/
def deliver (chunks : List Bytes) : Except String Unit × List (Stream × String) :=
  let run : ExceptT String (StateM (List (Stream × String))) Unit := do
    let d ← chunks.foldlM (fun d c => d.feed note c) empty
    ExceptT.lift (d.finish note)
  run.run.run []

/-- The texts of one stream. -/
def texts (st : Stream) (log : List (Stream × String)) : List String :=
  (log.filter (·.1 = st)).map Prod.snd

theorem forM_note (xs : List (Stream × Bytes)) (log : List (Stream × String)) :
    (forM xs fun x => note x.1 (fromUtf8Lossy x.2)).run log =
      ((), log ++ xs.map fun x => (x.1, fromUtf8Lossy x.2)) := by
  induction xs generalizing log with
  | nil =>
    rw [List.map_nil, List.append_nil]
    rfl
  | cons x xs ih =>
    rw [List.forM_cons, List.map_cons, List.append_cons]
    exact ih _

/-- **What the callback gets for log frames.** -/
theorem deliver_frames {fs : List (Stream × Bytes)} (hsize : ∀ f ∈ fs, f.2.length ≤ maxLogFrame)
    {chunks : List Bytes} (hchunks : chunks.flatten = (fs.map frame).flatten) :
    deliver chunks = (.ok (), ((frames.run empty fs).1 ++ (frames.run empty fs).2.last).map
      fun x => (x.1, fromUtf8Lossy x.2)) := by
  have hfeed : (fun (d : Demux) c => d.feed note c) = fun d c => c.foldlM (step note) d :=
    funext₂ fun d c => feed_eq note d c
  have hall : (do
      let d ← chunks.foldlM (fun d c => d.feed note c) empty
      ExceptT.lift (d.finish note) : ExceptT String (StateM (List (Stream × String))) Unit) =
        ExceptT.lift (forM ((frames.run empty fs).1 ++ (frames.run empty fs).2.last) fun x =>
          note x.1 (fromUtf8Lossy x.2)) := by
    rw [hfeed, foldlM_flatten, hchunks, foldlM_frames note ⟨rfl, rfl⟩ hsize, ← lift_bind,
      Transducer.give, bind_assoc, List.forM_append]
    simp only [pure_bind, finish_eq]
  rw [deliver, hall, ExceptT.run_lift, StateT.run_map, forM_note, List.nil_append]
  rfl

/-- **What each stream gets.** -/
theorem texts_deliver {fs : List (Stream × Bytes)} (hsize : ∀ f ∈ fs, f.2.length ≤ maxLogFrame)
    {chunks : List Bytes} (hchunks : chunks.flatten = (fs.map frame).flatten) (st : Stream) :
    texts st (deliver chunks).2 = (given .empty (payload st fs)).map fromUtf8Lossy := by
  obtain ⟨hlog, hlines⟩ := run_frames empty fs st
  have hempty : empty.lines st = .empty := by
    cases st with
    | stdout => rfl
    | stderr => rfl
  have hlast : ((frames.run empty fs).2.last.filter (·.1 = st)).map Prod.snd =
      ((frames.run empty fs).2.lines st).last := by
    rw [last, List.filter_append, List.map_append]
    cases st with
    | stdout => simp [List.filter_map, Function.comp_def, lines]
    | stderr => simp [List.filter_map, Function.comp_def, lines]
  have htexts : ∀ xs : List (Stream × Bytes),
      texts st (xs.map fun x => (x.1, fromUtf8Lossy x.2)) =
        ((xs.filter (·.1 = st)).map Prod.snd).map fromUtf8Lossy := by
    intro xs
    rw [texts, List.filter_map, List.map_map, List.map_map]
    rfl
  rw [deliver_frames hsize hchunks, htexts, List.filter_append, List.map_append, hlog, hlast,
    hlines, hempty, given]

end Demux

namespace JsonStream

/-! ### Objects -/

/-- What stands between the quotes of a string: a backslash takes the meaning from the byte behind
it. -/
inductive Quoted : Bytes → Prop
  | nil : Quoted []
  | plain {b : UInt8} {k : Bytes} (hb : isPlain b = true) (hk : Quoted k) : Quoted (b :: k)
  | escape {b : UInt8} {k : Bytes} (hk : Quoted k) : Quoted (backslash :: b :: k)

/-- JSON without the rules of the parser for strings and keys. -/
def loose : Rules := ⟨fun k _ => Quoted k, fun _ => True⟩

/-- The text of a JSON object, however deep it is. -/
def ObjectText (t : Bytes) : Prop := ∃ left kvs, Denotes loose left t (.object kvs)

theorem inside_cons {js js' : JsonStream} {b : UInt8} (h : js.inside b = some js') (c : Bytes) :
    (b :: c).foldlM inside js = c.foldlM inside js' := by
  rw [List.foldlM_cons, h]
  rfl

theorem inside_append {js js' : JsonStream} {a : Bytes} (h : a.foldlM inside js = some js')
    (c : Bytes) : (a ++ c).foldlM inside js = c.foldlM inside js' := by
  rw [List.foldlM_append, h]
  rfl

/-- Inside an object, these bytes leave it as far open as it is. -/
def Keeps (t : Bytes) : Prop :=
  ∀ buf depth, buf ≠ [] → 0 < depth → buf.length + t.length ≤ jsonLimit →
    t.foldlM inside ⟨buf, depth, false, false⟩ = some ⟨buf ++ t, depth, false, false⟩

theorem Keeps.nil : Keeps [] := by
  intro buf depth _ _ _
  rw [List.foldlM_nil, List.append_nil]
  rfl

theorem Keeps.append {t u : Bytes} (ht : Keeps t) (hu : Keeps u) : Keeps (t ++ u) := by
  intro buf depth hbuf hdepth hlimit
  rw [List.length_append] at hlimit
  have hlen : (buf ++ t).length + u.length ≤ jsonLimit := by
    rw [List.length_append]
    omega
  rw [inside_append (ht buf depth hbuf hdepth (by omega)),
    hu (buf ++ t) depth (List.append_ne_nil_of_left_ne_nil hbuf t) hdepth hlen, List.append_assoc]

/-- A byte that neither opens nor closes anything. -/
def Inert (b : UInt8) : Prop :=
  b ≠ quote ∧ ¬ (b = openBrace ∨ b = openBracket) ∧ ¬ (b = closeBrace ∨ b = closeBracket)

theorem Keeps.inert {b : UInt8} (hb : Inert b) : Keeps [b] := by
  intro buf depth hbuf hdepth hlimit
  rw [List.length_singleton] at hlimit
  have hopen : ¬ (buf = [] ∨ jsonLimit ≤ buf.length) := not_or.mpr ⟨hbuf, by omega⟩
  have hbyte : inside ⟨buf, depth, false, false⟩ b = some ⟨buf ++ [b], depth, false, false⟩ := by
    rw [inside, if_neg hopen]
    dsimp only
    rw [if_neg Bool.false_ne_true, if_neg hb.1, if_neg hb.2.1, if_neg hb.2.2]
  exact inside_cons hbyte []

theorem Keeps.cons {b : UInt8} {t : Bytes} (hb : Inert b) (ht : Keeps t) : Keeps (b :: t) :=
  (Keeps.inert hb).append ht

/-- Bytes that neither open nor close anything. -/
theorem Keeps.all {t : Bytes} (h : ∀ b ∈ t, Inert b) : Keeps t := by
  induction t with
  | nil => exact .nil
  | cons b t ih =>
    exact .cons (h b List.mem_cons_self) (ih fun c hc => h c (List.mem_cons_of_mem b hc))

/-- What is between brackets. -/
theorem Keeps.brackets {o c : UInt8} {t : Bytes} (ho : o = openBrace ∨ o = openBracket)
    (hc : c = closeBrace ∨ c = closeBracket) (ht : Keeps t) : Keeps (o :: (t ++ [c])) := by
  intro buf depth hbuf hdepth hlimit
  simp only [List.length_cons, List.length_append, List.length_nil] at hlimit
  have hoquote : o ≠ quote := by
    rcases ho with rfl | rfl
    · decide
    · decide
  have hcquote : c ≠ quote ∧ ¬ (c = openBrace ∨ c = openBracket) := by
    rcases hc with rfl | rfl
    · decide
    · decide
  have hopens : inside ⟨buf, depth, false, false⟩ o =
      some ⟨buf ++ [o], depth + 1, false, false⟩ := by
    have hopen : ¬ (buf = [] ∨ jsonLimit ≤ buf.length) := not_or.mpr ⟨hbuf, by omega⟩
    rw [inside, if_neg hopen]
    dsimp only
    rw [if_neg Bool.false_ne_true, if_neg hoquote, if_pos ho]
  have hcloses : inside ⟨buf ++ [o] ++ t, depth + 1, false, false⟩ c =
      some ⟨buf ++ [o] ++ t ++ [c], depth, false, false⟩ := by
    have hopen : ¬ (buf ++ [o] ++ t = [] ∨ jsonLimit ≤ (buf ++ [o] ++ t).length) := by
      simp only [List.length_append, List.length_singleton]
      exact not_or.mpr ⟨by simp, by omega⟩
    rw [inside, if_neg hopen]
    dsimp only
    rw [if_neg Bool.false_ne_true, if_neg hcquote.1, if_neg hcquote.2, if_pos hc,
      if_neg (by omega)]
    rfl
  have hlen : (buf ++ [o]).length + t.length ≤ jsonLimit := by
    rw [List.length_append, List.length_singleton]
    omega
  rw [inside_cons hopens,
    inside_append (ht (buf ++ [o]) (depth + 1) (by simp) (Nat.succ_pos _) hlen),
    inside_cons hcloses, List.append_assoc, List.append_assoc]
  rfl

/-- What is between quotes. -/
theorem Keeps.quotes {k : Bytes} (hk : Quoted k) : Keeps (quote :: (k ++ [quote])) := by
  intro buf depth hbuf hdepth hlimit
  simp only [List.length_cons, List.length_append, List.length_nil] at hlimit
  -- a byte of the string, with room in the buffer
  have hbyte : ∀ {buf : Bytes} {esc : Bool} {b : UInt8}, buf ≠ [] → buf.length < jsonLimit →
      inside ⟨buf, depth, true, esc⟩ b =
        if esc then some ⟨buf ++ [b], depth, true, false⟩
        else if b = backslash then some ⟨buf ++ [b], depth, true, true⟩
        else if b = quote then some ⟨buf ++ [b], depth, false, esc⟩
        else some ⟨buf ++ [b], depth, true, esc⟩ := by
    intro buf esc b hne hlen
    have hopen : ¬ (buf = [] ∨ jsonLimit ≤ buf.length) := not_or.mpr ⟨hne, by omega⟩
    rw [inside, if_neg hopen]
    dsimp only
    rw [if_pos rfl]
  have hstring : ∀ {buf : Bytes}, buf ≠ [] → buf.length + k.length ≤ jsonLimit →
      k.foldlM inside ⟨buf, depth, true, false⟩ = some ⟨buf ++ k, depth, true, false⟩ := by
    clear hlimit hbuf
    induction hk with
    | nil =>
      intro buf _ _
      rw [List.foldlM_nil, List.append_nil]
      rfl
    | @plain b k hb hk ih =>
      intro buf hne hlen
      rw [List.length_cons] at hlen
      simp only [isPlain, decide_eq_true_eq] at hb
      have hrest : (buf ++ [b]).length + k.length ≤ jsonLimit := by
        rw [List.length_append, List.length_singleton]
        omega
      have hplain : inside ⟨buf, depth, true, false⟩ b =
          some ⟨buf ++ [b], depth, true, false⟩ := by
        rw [hbyte hne (by omega), if_neg Bool.false_ne_true, if_neg hb.2.1, if_neg hb.1]
      rw [inside_cons hplain, ih (by simp) hrest, List.append_assoc, List.singleton_append]
    | @escape b k hk ih =>
      intro buf hne hlen
      simp only [List.length_cons] at hlen
      have hlen₁ : (buf ++ [backslash]).length < jsonLimit := by
        rw [List.length_append, List.length_singleton]
        omega
      have hrest : (buf ++ [backslash] ++ [b]).length + k.length ≤ jsonLimit := by
        simp only [List.length_append, List.length_singleton]
        omega
      have hback : inside ⟨buf, depth, true, false⟩ backslash =
          some ⟨buf ++ [backslash], depth, true, true⟩ := by
        rw [hbyte hne (by omega), if_neg Bool.false_ne_true, if_pos rfl]
      have hnext : inside ⟨buf ++ [backslash], depth, true, true⟩ b =
          some ⟨buf ++ [backslash] ++ [b], depth, true, false⟩ := by
        rw [hbyte (by simp) hlen₁, if_pos rfl]
      rw [inside_cons hback, inside_cons hnext, ih (by simp) hrest, List.append_assoc,
        List.append_assoc]
      rfl
  have hopen : ¬ (buf = [] ∨ jsonLimit ≤ buf.length) := not_or.mpr ⟨hbuf, by omega⟩
  have hopens : inside ⟨buf, depth, false, false⟩ quote =
      some ⟨buf ++ [quote], depth, true, false⟩ := by
    rw [inside, if_neg hopen]
    dsimp only
    rw [if_neg Bool.false_ne_true, if_pos rfl]
  have hlen₁ : (buf ++ [quote]).length + k.length ≤ jsonLimit := by
    rw [List.length_append, List.length_singleton]
    omega
  have hlen₂ : (buf ++ [quote] ++ k).length < jsonLimit := by
    simp only [List.length_append, List.length_singleton]
    omega
  have hcloses : inside ⟨buf ++ [quote] ++ k, depth, true, false⟩ quote =
      some ⟨buf ++ [quote] ++ k ++ [quote], depth, false, false⟩ := by
    rw [hbyte (by simp) hlen₂, if_neg Bool.false_ne_true, if_neg (by decide), if_pos rfl]
  rw [inside_cons hopens, inside_append (hstring (by simp) hlen₁), inside_cons hcloses,
    List.append_assoc, List.append_assoc]
  rfl

/-! ### JSON keeps an object open -/

theorem keeps_space {w : Bytes} (hw : Ws w) : Keeps w := by
  refine .all fun b hb => ?_
  rcases hw b hb with rfl | rfl | rfl | rfl
  · exact ⟨by decide, by decide, by decide⟩
  · exact ⟨by decide, by decide, by decide⟩
  · exact ⟨by decide, by decide, by decide⟩
  · exact ⟨by decide, by decide, by decide⟩

theorem inert_of_isDigit {b : UInt8} (h : isDigit b = true) : Inert b := by
  have hle := (Bool.and_eq_true_iff.mp h).2
  have hle : b.toNat ≤ 57 := UInt8.le_iff_toNat_le.mp (of_decide_eq_true hle)
  have hne : ∀ c : UInt8, 57 < c.toNat → b ≠ c := by
    rintro c hc rfl
    omega
  refine ⟨?_, ?_, ?_⟩
  · rintro rfl
    exact absurd h (by decide)
  · rintro (rfl | rfl)
    · exact absurd h (by decide)
    · exact absurd h (by decide)
  · rintro (rfl | rfl)
    · exact absurd h (by decide)
    · exact absurd h (by decide)

theorem keeps_digits {ds : Bytes} (h : Types.Json.DigitRow ds) : Keeps ds :=
  .all fun b hb => inert_of_isDigit (h.2 b hb)

theorem inert_of_mem {b : UInt8} (h : b ∈ ([43, 45, 46, 69, 101, 44, 58] : Bytes)) : Inert b := by
  simp only [List.mem_cons, List.not_mem_nil, or_false] at h
  rcases h with rfl | rfl | rfl | rfl | rfl | rfl | rfl <;>
    exact ⟨by decide, by decide, by decide⟩

theorem keeps_number {float : Bool} {t : Bytes} (h : NumberText float t) : Keeps t := by
  obtain ⟨sign, int, frac, exp, rfl, hsign, hint, hfrac, hexp, -⟩ := h.parts
  refine .append ?_ (.append ?_ (.append ?_ ?_))
  · rcases hsign with rfl | rfl
    · exact .nil
    · exact .inert (inert_of_mem (by decide))
  · rcases hint with rfl | ⟨hrow, -⟩
    · exact .inert (inert_of_isDigit (by decide))
    · exact keeps_digits hrow
  · rcases hfrac with rfl | ⟨ds, hds, rfl⟩
    · exact .nil
    · exact .cons (inert_of_mem (by decide)) (keeps_digits hds)
  · rcases hexp with rfl | ⟨e, s, ds, he, hs, hds, rfl⟩
    · exact .nil
    · refine .cons ?_ (.append ?_ (keeps_digits hds))
      · rcases he with rfl | rfl
        · exact inert_of_mem (by decide)
        · exact inert_of_mem (by decide)
      · rcases hs with rfl | rfl | rfl
        · exact .nil
        · exact .inert (inert_of_mem (by decide))
        · exact .inert (inert_of_mem (by decide))

section

variable {item : Bytes → Value → Prop}

theorem keeps_items (hitem : ∀ t v, item t v → Keeps t) {b : Bytes} {vs : List Value}
    (h : Items item b vs) : Keeps b := by
  induction h with
  | one hw ht hw' => exact (keeps_space hw).append ((hitem _ _ ht).append (keeps_space hw'))
  | more hw ht hw' _ ih =>
    exact (keeps_space hw).append ((hitem _ _ ht).append
      ((keeps_space hw').append (.cons (inert_of_mem (by decide)) ih)))

theorem keeps_pair (hitem : ∀ t v, item t v → Keeps t) {b : Bytes} {kv : String × Value}
    (h : Pair loose item b kv) : Keeps b := by
  cases h with
  | @mk w k w₁ w₂ t w₃ s v hw hk hw₁ hw₂ ht hw₃ =>
    have htail : Keeps (w₁ ++ colon :: (w₂ ++ (t ++ w₃))) :=
      (keeps_space hw₁).append (.cons (inert_of_mem (by decide))
        ((keeps_space hw₂).append ((hitem _ _ ht).append (keeps_space hw₃))))
    have hall := (keeps_space hw).append ((Keeps.quotes hk).append htail)
    simpa only [List.cons_append, List.append_assoc, List.nil_append] using hall

theorem keeps_pairs (hitem : ∀ t v, item t v → Keeps t) {b : Bytes} {kvs : List (String × Value)}
    (h : Pairs loose item b kvs) : Keeps b := by
  induction h with
  | one h => exact keeps_pair hitem h
  | more h _ ih => exact (keeps_pair hitem h).append (.cons (inert_of_mem (by decide)) ih)

theorem keeps_valueText (hitem : ∀ t v, item t v → Keeps t) {t : Bytes} {v : Value}
    (h : ValueText loose item t v) : Keeps t := by
  have hletters : ∀ s : String, ((utf8 s).all fun b => 97 ≤ b && b ≤ 122) = true →
      Keeps (utf8 s) := by
    refine fun s hs => .all fun b hb => ?_
    obtain ⟨hlo, hhi⟩ := Bool.and_eq_true_iff.mp (List.all_eq_true.mp hs b hb)
    refine ⟨?_, ?_, ?_⟩
    · rintro rfl
      exact absurd hlo (by decide)
    · rintro (rfl | rfl)
      · exact absurd hhi (by decide)
      · exact absurd hlo (by decide)
    · rintro (rfl | rfl)
      · exact absurd hhi (by decide)
      · exact absurd hlo (by decide)
  cases h with
  | null => exact hletters "null" rfl
  | true => exact hletters "true" rfl
  | false => exact hletters "false" rfl
  | number h => exact keeps_number h
  | string h => exact .quotes h
  | emptyArray hw => exact .brackets (.inr rfl) (.inr rfl) (keeps_space hw)
  | array h => exact .brackets (.inr rfl) (.inr rfl) (keeps_items hitem h)
  | emptyObject hw => exact .brackets (.inl rfl) (.inl rfl) (keeps_space hw)
  | object h _ => exact .brackets (.inl rfl) (.inl rfl) (keeps_pairs hitem h)

end

theorem keeps_denotes (left : ℕ) (t : Bytes) (v : Value) (h : Denotes loose left t v) :
    Keeps t := by
  induction left generalizing t v with
  | zero => exact h.elim
  | succ left ih => exact keeps_valueText ih h

/-- An object: its braces, and what keeps it open. -/
theorem ObjectText.braces {t : Bytes} (h : ObjectText t) :
    ∃ b, t = openBrace :: (b ++ [closeBrace]) ∧ Keeps b := by
  obtain ⟨left, kvs, h⟩ := h
  cases left with
  | zero => exact h.elim
  | succ left =>
    cases h with
    | emptyObject hw => exact ⟨_, rfl, keeps_space hw⟩
    | object h _ => exact ⟨_, rfl, keeps_pairs (keeps_denotes left) h⟩

/-! ### The stream -/

section

variable {m : Type → Type} [Monad m] [LawfulMonad m] (onObj : Bytes → ExceptT PullError m Unit)

omit [LawfulMonad m] in
theorem step_open : empty.step onObj openBrace = pure ⟨[openBrace], 1, false, false⟩ := by
  have hws : ¬ (empty.depth = 0 ∧ empty.buf = [] ∧ isAsciiWhitespace openBrace = true) :=
    fun h => absurd h.2.2 (by decide)
  have hroom : ¬ jsonLimit ≤ empty.buf.length := by decide
  rw [step, if_neg hws, if_neg (fun h => h.2.2 rfl), if_neg hroom]
  rfl

theorem feed_space {w : Bytes} (hw : Ws w) : w.foldlM (step onObj) empty = pure empty := by
  induction w with
  | nil => rfl
  | cons b w ih =>
    have hws := hw b List.mem_cons_self
    have hascii : isAsciiWhitespace b = true := by
      rcases hws with rfl | rfl | rfl | rfl <;> decide
    rw [List.foldlM_cons, step, if_pos ⟨rfl, rfl, hascii⟩, pure_bind,
      ih fun c hc => hw c (List.mem_cons_of_mem b hc)]

/-- The inside of an object, behind its brace. -/
theorem Keeps.open {b : Bytes} (hb : Keeps b) (hlimit : b.length + 1 ≤ jsonLimit) :
    b.foldlM inside ⟨[openBrace], 1, false, false⟩ =
      some ⟨openBrace :: b, 1, false, false⟩ := by
  refine hb [openBrace] 1 (List.cons_ne_nil _ _) Nat.one_pos ?_
  rw [List.length_singleton]
  omega

/-- A whole object is given on. -/
theorem feed_object {t : Bytes} (ht : ObjectText t) (hlimit : t.length ≤ jsonLimit) :
    t.foldlM (step onObj) empty = (onObj t >>= fun _ => pure empty) := by
  obtain ⟨b, rfl, hb⟩ := ht.braces
  simp only [List.length_cons, List.length_append, List.length_nil] at hlimit
  have hbody := (foldlM_inside onObj (hb.open (by omega))).1
  have hclose : step onObj ⟨openBrace :: b, 1, false, false⟩ closeBrace =
      (onObj (openBrace :: (b ++ [closeBrace])) >>= fun _ => pure empty) := by
    have hroom : ¬ jsonLimit ≤ (openBrace :: b).length := by
      rw [List.length_cons]
      omega
    rw [step, if_neg (fun h => Nat.one_ne_zero h.1), if_neg (fun h => Nat.one_ne_zero h.1),
      if_neg hroom]
    dsimp only
    rw [if_neg Bool.false_ne_true, if_neg (by decide), if_neg (by decide), if_pos (.inl rfl),
      if_pos rfl]
    rfl
  rw [List.foldlM_cons, step_open, pure_bind, List.foldlM_append, hbody, pure_bind,
    List.foldlM_cons, hclose]
  simp only [List.foldlM_nil, bind_pure]

/-- The beginning of an object is kept. -/
theorem feed_prefix {t p : Bytes} (ht : ObjectText t) (hlimit : t.length ≤ jsonLimit)
    (hp : p <+: t) (hne : p ≠ t) :
    ∃ js, p.foldlM (step onObj) empty = pure js ∧ js.buf = p := by
  obtain ⟨b, rfl, hb⟩ := ht.braces
  simp only [List.length_cons, List.length_append, List.length_nil] at hlimit
  rcases p with _ | ⟨c, p⟩
  · exact ⟨empty, rfl, rfl⟩
  rw [List.cons_prefix_cons] at hp
  obtain ⟨rfl, hp⟩ := hp
  -- the brace at the end is missing
  obtain ⟨rest, hrest⟩ : p <+: b := by
    rcases List.prefix_concat_iff.mp hp with rfl | h
    · exact absurd rfl hne
    · exact h
  have hopen := hb.open (by omega)
  rw [← hrest, List.foldlM_append] at hopen
  obtain ⟨js, hjs, -⟩ := Option.bind_eq_some_iff.mp hopen
  obtain ⟨hrun, hbuf⟩ := foldlM_inside onObj hjs
  refine ⟨js, ?_, hbuf⟩
  rw [List.foldlM_cons, step_open, pure_bind, hrun]

/-- **Objects with white space between them, and the beginning of one.** -/
theorem feed_objects {xs : List (Bytes × Bytes)}
    (hxs : ∀ x ∈ xs, Ws x.1 ∧ ObjectText x.2 ∧ x.2.length ≤ jsonLimit) {w p t : Bytes} (hw : Ws w)
    (ht : ObjectText t) (hlimit : t.length ≤ jsonLimit) (hp : p <+: t) (hne : p ≠ t) :
    ∃ js, ((xs.map fun x => x.1 ++ x.2).flatten ++ (w ++ p)).foldlM (step onObj) empty =
        (forM (xs.map Prod.snd) onObj >>= fun _ => pure js) ∧ js.buf = p := by
  obtain ⟨js, hjs, hbuf⟩ := feed_prefix onObj ht hlimit hp hne
  refine ⟨js, ?_, hbuf⟩
  induction xs with
  | nil =>
    rw [List.map_nil, List.flatten_nil, List.nil_append, List.foldlM_append, feed_space onObj hw,
      pure_bind, hjs, List.map_nil, List.forM_nil, pure_bind]
  | cons x xs ih =>
    obtain ⟨hws, hobj, hlen⟩ := hxs x List.mem_cons_self
    rw [List.map_cons, List.flatten_cons, List.append_assoc, List.append_assoc,
      List.foldlM_append, feed_space onObj hws, pure_bind, List.foldlM_append,
      feed_object onObj hobj hlen, bind_assoc, List.map_cons, List.forM_cons, bind_assoc]
    simp only [pure_bind, ih fun y hy => hxs y (List.mem_cons_of_mem x hy)]

end

/-- A callback that notes what it gets. -/
def note (t : Bytes) : ExceptT PullError (StateM (List Bytes)) Unit :=
  ExceptT.lift (modify (· ++ [t]))

/-- A stream in chunks: where the reader is left, and what the callback got. -/
def deliver (chunks : List Bytes) : Except PullError JsonStream × List Bytes :=
  (chunks.foldlM (fun (js : JsonStream) c => js.feed note c) empty).run.run []

theorem forM_note (ts : List Bytes) (js : JsonStream) (log : List Bytes) :
    (forM ts note >>= fun _ => pure js : ExceptT PullError (StateM (List Bytes)) JsonStream).run.run
      log = (.ok js, log ++ ts) := by
  induction ts generalizing log with
  | nil =>
    rw [List.append_nil]
    rfl
  | cons t ts ih =>
    rw [List.forM_cons, List.append_cons]
    exact ih _

/-- **What the callback gets for objects.** -/
theorem deliver_objects {xs : List (Bytes × Bytes)}
    (hxs : ∀ x ∈ xs, Ws x.1 ∧ ObjectText x.2 ∧ x.2.length ≤ jsonLimit) {w p t : Bytes} (hw : Ws w)
    (ht : ObjectText t) (hlimit : t.length ≤ jsonLimit) (hp : p <+: t) (hne : p ≠ t)
    {chunks : List Bytes}
    (hchunks : chunks.flatten = (xs.map fun x => x.1 ++ x.2).flatten ++ (w ++ p)) :
    ∃ js, deliver chunks = (.ok js, xs.map Prod.snd) ∧ (js.finish = .ok () ↔ p = []) := by
  obtain ⟨js, hrun, hbuf⟩ := feed_objects note hxs hw ht hlimit hp hne
  have hfeed : chunks.foldlM (fun (js : JsonStream) c => js.feed note c) empty =
      chunks.flatten.foldlM (step note) empty := foldlM_flatten (step note) chunks empty
  refine ⟨js, ?_, ?_⟩
  · rw [deliver, hfeed, hchunks, hrun, forM_note, List.nil_append]
  · rw [finish, hbuf]
    split_ifs with h
    · exact iff_of_true rfl h
    · exact iff_of_false nofun h

end JsonStream

/-! ### Whatever the chunks -/

open Demux (frame payload texts) in
/-- **Log lines and objects do not depend on the chunks.** The lines of log frames are cut exactly
iff none that ends with a newline is as long as a multiple of `maxLine`. Of JSON objects with white
space between them, and the beginning `p` of another one, the objects are given on, and the end of
the stream is an error iff it is inside an object. -/
theorem delivers_iff {fs : List (Stream × Bytes)} (hsize : ∀ f ∈ fs, f.2.length ≤ maxLogFrame)
    {chunks : List Bytes} (hchunks : chunks.flatten = (fs.map frame).flatten)
    {xs : List (Bytes × Bytes)}
    (hxs : ∀ x ∈ xs, Ws x.1 ∧ JsonStream.ObjectText x.2 ∧ x.2.length ≤ jsonLimit) {w p t : Bytes}
    (hw : Ws w) (ht : JsonStream.ObjectText t) (hlimit : t.length ≤ jsonLimit) (hp : p <+: t)
    (hne : p ≠ t) {pulled : List Bytes}
    (hpulled : pulled.flatten = (xs.map fun x => x.1 ++ x.2).flatten ++ (w ++ p)) :
    ((Demux.deliver chunks).1 = .ok () ∧
        (∀ st, CutExactly (payload st fs) (texts st (Demux.deliver chunks).2)) ∧
        ∃ js, JsonStream.deliver pulled = (.ok js, xs.map Prod.snd) ∧
          (js.finish = .ok () ↔ p = [])) ↔
      ∀ st, ∀ line ∈ ended (payload st fs), line ≠ [] → ¬ maxLine ∣ line.length := by
  have hobjects := JsonStream.deliver_objects hxs hw ht hlimit hp hne hpulled
  have hlines : ∀ st, CutExactly (payload st fs) (texts st (Demux.deliver chunks).2) ↔
      ∀ line ∈ ended (payload st fs), line ≠ [] → ¬ maxLine ∣ line.length := by
    intro st
    rw [Demux.texts_deliver hsize hchunks]
    exact cutExactly_given_iff _
  refine ⟨fun h st => (hlines st).mp (h.2.1 st), fun h => ⟨?_, fun st => (hlines st).mpr (h st),
    hobjects⟩⟩
  rw [Demux.deliver_frames hsize hchunks]

theorem objectText_braces : JsonStream.ObjectText (utf8 "\x7b\x7d") :=
  ⟨1, [], @ValueText.emptyObject _ _ [] fun _ hb => nomatch hb⟩

/-- Two frames of the logs, and two whole objects with a piece of a third one. -/
def twoFrames : List (Stream × Bytes) := [(.stdout, [97, 10]), (.stderr, [98, 10, 99])]

def twoObjects : List (Bytes × Bytes) := [([10], utf8 "\x7b\x7d"), ([], utf8 "\x7b\x7d")]

/-- The logs in two chunks, cut inside the head of the second frame; the pull in two, cut inside the
second object. -/
theorem delivers_iff_sample :
    let logs := (twoFrames.map Demux.frame).flatten
    let pull := (twoObjects.map fun x => x.1 ++ x.2).flatten ++ ([10] ++ utf8 "\x7b")
    ((Demux.deliver [logs.take 12, logs.drop 12]).1 = .ok () ∧
        (∀ st, CutExactly (Demux.payload st twoFrames)
          (Demux.texts st (Demux.deliver [logs.take 12, logs.drop 12]).2)) ∧
        ∃ js, JsonStream.deliver [pull.take 4, pull.drop 4] = (.ok js, twoObjects.map Prod.snd) ∧
          (js.finish = .ok () ↔ utf8 "\x7b" = [])) ↔
      ∀ st, ∀ line ∈ ended (Demux.payload st twoFrames), line ≠ [] → ¬ maxLine ∣ line.length := by
  intro logs pull
  have hsize : ∀ f ∈ twoFrames, f.2.length ≤ maxLogFrame := by
    rw [twoFrames, List.forall_mem_cons, List.forall_mem_singleton]
    exact ⟨by decide, by decide⟩
  have hw : Ws [10] := fun b hb => .inr (.inr (.inl (List.mem_singleton.mp hb)))
  have hxs : ∀ x ∈ twoObjects,
      Ws x.1 ∧ JsonStream.ObjectText x.2 ∧ x.2.length ≤ jsonLimit := by
    rw [twoObjects, List.forall_mem_cons, List.forall_mem_singleton]
    exact ⟨⟨hw, objectText_braces, by decide⟩,
      fun _ h => absurd h List.not_mem_nil, objectText_braces, by decide⟩
  have hp : utf8 "\x7b" <+: utf8 "\x7b\x7d" := ⟨utf8 "\x7d", rfl⟩
  have hjoin : ∀ (n : ℕ) (b : Bytes), [b.take n, b.drop n].flatten = b := fun n b => by
    rw [List.flatten_cons, List.flatten_singleton, List.take_append_drop]
  exact delivers_iff hsize (hjoin 12 logs) hxs hw objectText_braces (by decide) hp (by decide)
    (hjoin 4 pull)

/-- A line of `maxLine` bytes and its newline: an empty line comes behind it. -/
theorem deliver_full_line :
    ¬ ((Demux.deliver [Demux.frame (.stdout, List.replicate maxLine 97 ++ [newline])]).1 = .ok () ∧
      ∀ st, CutExactly
        (Demux.payload st [(.stdout, List.replicate maxLine 97 ++ [newline])])
        (Demux.texts st
          (Demux.deliver [Demux.frame (.stdout, List.replicate maxLine 97 ++ [newline])]).2)) := by
  rintro ⟨-, hcut⟩
  have hsize : ∀ f ∈ [(Stream.stdout, List.replicate maxLine (97 : UInt8) ++ [newline])],
      f.2.length ≤ maxLogFrame := by
    intro f hf
    rw [List.mem_singleton.mp hf, List.length_append, List.length_replicate]
    decide
  have hpayload : Demux.payload .stdout [(.stdout, List.replicate maxLine 97 ++ [newline])] =
      List.replicate maxLine 97 ++ [newline] := List.flatten_singleton
  have hstdout := hcut .stdout
  rw [Demux.texts_deliver hsize (by simp), cutExactly_given_iff, hpayload] at hstdout
  have hended : List.replicate maxLine 97 ∈ ended (List.replicate maxLine 97 ++ [newline]) := by
    have hmem : newline ∉ List.replicate maxLine (97 : UInt8) := fun h =>
      absurd (List.eq_of_mem_replicate h) (by decide)
    rw [ended, List.splitOn_append_cons_self_of_not_mem hmem, List.splitOn_nil]
    exact List.mem_singleton_self _
  refine hstdout _ hended ?_ ?_
  · intro hnil
    have hlen := congrArg List.length hnil
    rw [List.length_replicate] at hlen
    exact absurd hlen (by decide)
  · rw [List.length_replicate]

end Hop.Runner
