import Hop.Hoplb.Counting
import Hop.Lib.Exposition

/-!
# What is read from the load balancer

The text that the load balancer renders says three metrics (`document`): the requests by domain,
backend and code; the latencies, as a summary for each domain and backend; and the pairs that were
folded, if there were any. It is read as just that (`exposed`), whatever the domains and the backends
are called.
-/

namespace Hop.Hoplb

open Exposition (of_chars labelText labelsText isPlain_append)
open Hop.Exposition (Faithful Family Item Pointed Reads Sample escaped isValue)

/-- What the numbers are printed as. -/
structure F64.Prints {F : Type} (ops : F64 F) : Prop where
  value : ∀ prec v, 0 < prec → Pointed (ops.fixed prec v) ∨
    ops.fixed prec v ∈ [['N', 'a', 'N'], ['i', 'n', 'f'], ['-', 'i', 'n', 'f']]
  quantiles : ops.quantiles.map (ops.fixed 2) =
    [['0', '.', '5', '0'], ['0', '.', '9', '0'], ['0', '.', '9', '5'], ['0', '.', '9', '9']]

namespace Metrics

variable {F : Type}
variable {ops : F64 F}

/-! ### What it says -/

/-- The labels that all samples of a series have. -/
def pairLabels (domain backend : String) : List (List Char × List Char) :=
  [("domain".toList, domain.toList), ("backend".toList, backend.toList)]

/-- What is said of a domain, a backend and a code. -/
def requestSample (x : String × String × ℕ × ℕ) : Sample :=
  ⟨"hoplb_requests_total".toList, pairLabels x.1 x.2.1 ++ [("code".toList, number x.2.2.1)],
    number x.2.2.2, none⟩

def requests (m : Metrics F) : Family where
  name := "hoplb_requests_total".toList
  help := "Total HTTP requests".toList
  kind := "counter".toList
  samples := m.requestCounts.map requestSample

/-- The quantiles of a series. -/
def quantilesOf [LinearOrder F] (ops : F64 F) (s : Series F) : List F :=
  if s.sortedCopy.1 = [] then ops.quantiles.map fun _ => ops.zero
  else ops.quantiles.map (atPercentile ops s.sortedCopy.1)

/-- What is said of a quantile of a series. -/
def quantileSample (ops : F64 F) (s : Series F) (x : F × F) : Sample :=
  ⟨"hoplb_request_duration_seconds".toList,
    pairLabels s.domain s.backend ++ [("quantile".toList, ops.fixed 2 x.1)], ops.fixed 6 x.2, none⟩

/-- What is said of the latencies of a series, if there are any. -/
def latencies [LinearOrder F] (ops : F64 F) (s : Series F) : List Sample :=
  if s.samples.length = 0 then []
  else
    (ops.quantiles.zip (quantilesOf ops s)).map (quantileSample ops s) ++
    [⟨"hoplb_request_duration_seconds_count".toList, pairLabels s.domain s.backend,
        number s.samples.length, none⟩,
      ⟨"hoplb_request_duration_seconds_sum".toList, pairLabels s.domain s.backend,
        ops.fixed 6 s.sum, none⟩]

def durations [LinearOrder F] (ops : F64 F) (m : Metrics F) : Family where
  name := "hoplb_request_duration_seconds".toList
  help := "Request duration percentiles".toList
  kind := "summary".toList
  samples := m.series.rows.flatMap (latencies ops)

def foldedPairs (m : Metrics F) : Family where
  name := "hoplb_series_folded_total".toList
  help := "Series folded into domain \"".toList ++ overflowDomain.toList ++ "\" (over ".toList ++
    number m.maxSeries ++ " series)".toList
  kind := "counter".toList
  samples := [⟨"hoplb_series_folded_total".toList, [], number m.folded, none⟩]

/-- What the text says. -/
def document [LinearOrder F] (ops : F64 F) (m : Metrics F) : List Family :=
  [m.requests, durations ops m] ++ if 0 < m.folded then [m.foldedPairs] else []

/-! ### Lines -/

theorem quote_eq (s : String) : quote s = '"' :: (escaped s.toList ++ ['"']) := rfl

theorem isValue_number (n : ℕ) : isValue (number n) = true := Exposition.isValue_toDigits n

theorem isValue_fixed (hops : ops.Prints) {p : ℕ} (hp : 0 < p) (v : F) :
    isValue (ops.fixed p v) = true := by
  rcases hops.value p v hp with h | h
  · exact Exposition.isValue_pointed h
  · rcases List.mem_cons.mp h with h | h
    · rw [h]
      decide
    rcases List.mem_cons.mp h with h | h
    · rw [h]
      decide
    · rw [List.mem_singleton.mp h]
      decide

/-- A number needs no escape. -/
theorem escaped_digits {ds : List Char} (h : ∀ c ∈ ds, c.isDigit = true) : escaped ds = ds := by
  induction ds with
  | nil => rfl
  | cons c ds ih =>
    have hc := h c List.mem_cons_self
    have hone : Exposition.escape c = [c] := by
      rw [Exposition.escape, if_neg, if_neg, if_neg]
      · rintro rfl
        exact absurd hc (by decide)
      · rintro rfl
        exact absurd hc (by decide)
      · rintro rfl
        exact absurd hc (by decide)
    rw [escaped, List.flatMap_cons, hone]
    exact congrArg (c :: ·) (ih fun d hd => h d (List.mem_cons_of_mem _ hd))

theorem escaped_number (n : ℕ) : escaped (number n) = number n :=
  escaped_digits (Exposition.isDigit_of_mem (Exposition.isDigits_toDigits n))

theorem escaped_quantile (hops : ops.Prints) {q : F} (hq : q ∈ ops.quantiles) :
    escaped (ops.fixed 2 q) = ops.fixed 2 q := by
  have hmem := List.mem_map_of_mem (f := ops.fixed 2) hq
  rw [hops.quantiles] at hmem
  simp only [List.mem_cons, List.not_mem_nil, or_false] at hmem
  rcases hmem with h | h | h | h
  · rw [h]
    rfl
  · rw [h]
    rfl
  · rw [h]
    rfl
  · rw [h]
    rfl

theorem isLabel_pairLabels {domain backend : String} :
    ∀ l ∈ pairLabels domain backend, Exposition.isLabel l.1 = true := by
  intro l hl
  rcases List.mem_cons.mp hl with rfl | hl
  · exact of_chars (s := "domain") rfl (by decide)
  · rw [List.mem_singleton.mp hl]
    exact of_chars (s := "backend") rfl (by decide)

/-- The labels of a series as they are written. -/
theorem labels_eq (domain backend : String) :
    "\x7bdomain=".toList ++ quote domain ++ ",backend=".toList ++ quote backend =
      '\x7b' :: (labelText ("domain".toList, domain.toList) ++
        ',' :: labelText ("backend".toList, backend.toList)) := by
  have hdomain : "\x7bdomain=".toList = '\x7b' :: ("domain".toList ++ ['=']) := rfl
  have hbackend : ",backend=".toList = ',' :: ("backend".toList ++ ['=']) := rfl
  simp only [hdomain, hbackend, quote_eq, labelText, List.append_assoc, List.cons_append,
    List.nil_append]

theorem labels_def (s : Series F) : s.labels =
    "\x7bdomain=".toList ++ quote s.domain ++ ",backend=".toList ++ quote s.backend := rfl

/-- A sample with the labels of a series and one more. -/
theorem text_more (name : List Char) (domain backend label : String) {v : List Char}
    (hv : escaped v = v) (value : List Char) :
    Sample.text ⟨name, pairLabels domain backend ++ [(label.toList, v)], value, none⟩ =
      name ++ ("\x7bdomain=".toList ++ quote domain ++ ",backend=".toList ++ quote backend) ++
        (',' :: (label.toList ++ ['=', '"'])) ++ v ++ ['"', '\x7d', ' '] ++ value := by
  have hmore : labelText (label.toList, v) = label.toList ++ '=' :: '"' :: (v ++ ['"']) := by
    rw [labelText, hv]
  rw [labels_eq]
  simp only [Sample.text, pairLabels, labelsText, List.append_assoc,
    List.cons_append, List.nil_append, List.flatMap_cons, List.flatMap_nil, hmore]

/-- A sample with just the labels of a series. -/
theorem text_pair (name : List Char) (domain backend : String) (value : List Char) :
    Sample.text ⟨name, pairLabels domain backend, value, none⟩ =
      name ++ ("\x7bdomain=".toList ++ quote domain ++ ",backend=".toList ++ quote backend) ++
        ['\x7d', ' '] ++ value := by
  rw [labels_eq]
  simp only [Sample.text, pairLabels, labelsText, List.append_assoc,
    List.cons_append, List.nil_append, List.flatMap_cons, List.flatMap_nil]

theorem isName_requests : Exposition.isName "hoplb_requests_total".toList = true :=
  of_chars (s := "hoplb_requests_total") rfl (by decide)

theorem isKind_counter : Exposition.isKind "counter".toList = true :=
  of_chars (s := "counter") rfl (by decide)

/-- The line of a domain, a backend and a code. -/
theorem text_request (d b : String) (code n : ℕ) :
    "hoplb_requests_total\x7bdomain=".toList ++ quote d ++ ",backend=".toList ++ quote b ++
      ",code=\"".toList ++ number code ++ "\"\x7d ".toList ++ number n ++ ['\n'] =
    (requestSample (d, b, code, n)).text ++ ['\n'] := by
  have hopen : "hoplb_requests_total\x7bdomain=".toList =
      "hoplb_requests_total".toList ++ "\x7bdomain=".toList := rfl
  have hcode : ",code=\"".toList = ',' :: ("code".toList ++ ['=', '"']) := rfl
  have hclose : "\"\x7d ".toList = ['"', '\x7d', ' '] := rfl
  have htext := text_more "hoplb_requests_total".toList d b "code" (escaped_number code) (number n)
  refine Eq.trans ?_ (congrArg (· ++ ['\n']) htext.symm)
  simp only [hopen, hcode, hclose, List.append_assoc]

theorem reads_requests (m : Metrics F) : Reads m.renderCounts m.requests.items := by
  have htext : "# HELP hoplb_requests_total Total HTTP requests\n" ++
      "# TYPE hoplb_requests_total counter\n" = "# HELP " ++ "hoplb_requests_total" ++ " " ++
        "Total HTTP requests" ++ "\n# TYPE " ++ "hoplb_requests_total" ++ " " ++ "counter" ++ "\n" := rfl
  have hhead := Reads.head_text isName_requests
    (Exposition.of_chars (s := "Total HTTP requests") rfl (by decide)) isKind_counter
  rw [← htext, String.toList_append] at hhead
  have hvalid : ∀ x ∈ m.requestCounts, (requestSample x).Valid := by
    intro x _
    refine ⟨isName_requests, fun l hl => ?_, isValue_number _, rfl⟩
    rcases List.mem_append.mp hl with hl | hl
    · exact isLabel_pairLabels l hl
    · rw [List.mem_singleton.mp hl]
      exact Exposition.of_chars (s := "code") rfl (by decide)
  have hsamples := Reads.samples m.requestCounts (fun x _ => text_request x.1 x.2.1 x.2.2.1 x.2.2.2)
    hvalid
  have hall := (hhead.append hsamples).append .blank
  rw [List.append_nil] at hall
  exact hall

theorem isName_durations : Exposition.isName "hoplb_request_duration_seconds".toList = true :=
  Exposition.of_chars (s := "hoplb_request_duration_seconds") rfl (by decide)

/-- The line of a quantile. -/
theorem text_quantile (hops : ops.Prints) (s : Series F) {x : F × F} (hx : x.1 ∈ ops.quantiles) :
    "hoplb_request_duration_seconds".toList ++ s.labels ++ ",quantile=\"".toList ++
      ops.fixed 2 x.1 ++ "\"\x7d ".toList ++ ops.fixed 6 x.2 ++ ['\n'] =
    (quantileSample ops s x).text ++ ['\n'] := by
  have hquantile : ",quantile=\"".toList = ',' :: ("quantile".toList ++ ['=', '"']) := rfl
  have hclose : "\"\x7d ".toList = ['"', '\x7d', ' '] := rfl
  have htext := text_more "hoplb_request_duration_seconds".toList s.domain s.backend "quantile"
    (escaped_quantile hops hx) (ops.fixed 6 x.2)
  refine Eq.trans ?_ (congrArg (· ++ ['\n']) htext.symm)
  simp only [hquantile, hclose, labels_def, List.append_assoc]

/-- A line with just the labels of a series. -/
theorem reads_pair (s : Series F) (name : List Char) {value : List Char}
    (hname : Exposition.isName name = true)
    (hvalue : isValue value = true) : Reads (name ++ s.labels ++ "\x7d ".toList ++ value ++ ['\n'])
      [.sample ⟨name, pairLabels s.domain s.backend, value, none⟩] := by
  have hclose : "\x7d ".toList = ['\x7d', ' '] := rfl
  have htext := text_pair name s.domain s.backend value
  have hsample := Reads.sample (s := ⟨name, pairLabels s.domain s.backend, value, none⟩)
    ⟨hname, isLabel_pairLabels, hvalue, rfl⟩
  rw [htext] at hsample
  simp only [hclose, labels_def]
  exact hsample

/-- The latencies of one series. -/
theorem reads_series [LinearOrder F] (hops : ops.Prints) (s : Series F) :
    Reads (renderSeries ops s).1 ((latencies ops s).map .sample) := by
  rw [renderSeries, latencies]
  dsimp only
  by_cases hnone : s.samples.length = 0
  · rw [if_pos hnone, if_pos hnone]
    exact .nil
  rw [if_neg hnone, if_neg hnone]
  have hvalid : ∀ x ∈ ops.quantiles.zip (quantilesOf ops s), (quantileSample ops s x).Valid := by
    intro x _
    refine ⟨isName_durations, fun l hl => ?_, isValue_fixed hops (by decide) _, rfl⟩
    rcases List.mem_append.mp hl with hl | hl
    · exact isLabel_pairLabels l hl
    · rw [List.mem_singleton.mp hl]
      exact Exposition.of_chars (s := "quantile") rfl (by decide)
  have hquantiles := Reads.samples (ops.quantiles.zip (quantilesOf ops s))
    (fun x hx => text_quantile hops s (List.of_mem_zip hx).1) hvalid
  have hcount := reads_pair s "hoplb_request_duration_seconds_count".toList
    (Exposition.of_chars rfl (by decide)) (isValue_number s.samples.length)
  have hsum := reads_pair s "hoplb_request_duration_seconds_sum".toList
    (Exposition.of_chars rfl (by decide)) (isValue_fixed hops (p := 6) (by decide) s.sum)
  have hall := (hquantiles.append hcount).append hsum
  rw [List.map_append]
  simp only [List.append_assoc] at hall ⊢
  exact hall

/-- The head of the latencies stands once, before the first series or alone. -/
theorem middle_eq [LinearOrder F] (ops : F64 F) (rows : List (Series F)) :
    (rows.zipIdx.flatMap fun (s, i) =>
      (if i = 0 then durationHead else []) ++ (renderSeries ops s).1) ++
      (if rows = [] then durationHead else []) =
    durationHead ++ rows.flatMap fun s => (renderSeries ops s).1 := by
  have hrest : ∀ (rows : List (Series F)) (n : ℕ), (rows.zipIdx (n + 1)).flatMap (fun (s, i) =>
      (if i = 0 then durationHead else []) ++ (renderSeries ops s).1) =
      rows.flatMap fun s => (renderSeries ops s).1 := by
    intro rows
    induction rows with
    | nil => exact fun _ => rfl
    | cons s rows ih =>
      intro n
      rw [List.zipIdx_cons, List.flatMap_cons, List.flatMap_cons, ih (n + 1)]
      rfl
  rcases rows with - | ⟨s, rows⟩
  · rw [if_pos rfl, List.flatMap_nil, List.append_nil]
    rfl
  · rw [if_neg (List.cons_ne_nil s rows), List.append_nil, List.zipIdx_cons, List.flatMap_cons,
      List.flatMap_cons, Nat.zero_add, hrest rows 0]
    exact List.append_assoc ..

theorem reads_durations [LinearOrder F] (hops : ops.Prints) (m : Metrics F) :
    Reads (durationHead ++ m.series.rows.flatMap fun s => (renderSeries ops s).1)
      (durations ops m).items := by
  have htext :
      "# HELP hoplb_request_duration_seconds Request duration percentiles\n# TYPE hoplb_request_duration_seconds summary\n" =
      "# HELP " ++ "hoplb_request_duration_seconds" ++ " " ++ "Request duration percentiles" ++
        "\n# TYPE " ++ "hoplb_request_duration_seconds" ++ " " ++ "summary" ++ "\n" := rfl
  have hhead := Reads.head_text isName_durations
    (Exposition.of_chars (s := "Request duration percentiles") rfl (by decide))
    (Exposition.of_chars (s := "summary") rfl (by decide))
  rw [← htext] at hhead
  have hrows := Reads.flatMap m.series.rows (f := fun s => (renderSeries ops s).1)
    (g := fun s => (latencies ops s).map .sample) fun s _ => reads_series hops s
  have hall := hhead.append hrows
  rwa [← List.map_flatMap] at hall

theorem isHelp_folded (m : Metrics F) : Exposition.isHelp m.foldedPairs.help = true := by
  have hhelp : m.foldedPairs.help = "Series folded into domain \"".toList ++ (overflowDomain.toList ++
      ("\" (over ".toList ++ (number m.maxSeries ++ " series)".toList))) := by
    unfold foldedPairs
    simp only [List.append_assoc]
  rw [hhelp]
  refine Exposition.isHelp_append (of_chars rfl (by decide)) ?_ ?_
  · simp
  refine isPlain_append (of_chars (s := "_other") rfl (by decide)) ?_
  refine isPlain_append (of_chars rfl (by decide)) ?_
  refine isPlain_append ?_ (of_chars rfl (by decide))
  exact Exposition.isPlain_digits (Exposition.isDigits_toDigits _)

theorem reads_folded (m : Metrics F) (h : 0 < m.folded) :
    Reads m.renderFolded m.foldedPairs.items := by
  have hname : Exposition.isName "hoplb_series_folded_total".toList = true :=
    of_chars (s := "hoplb_series_folded_total") rfl (by decide)
  have hhead := Reads.head hname (isHelp_folded m) isKind_counter
  have hsample := Reads.sample (s := ⟨"hoplb_series_folded_total".toList, [], number m.folded, none⟩)
    ⟨hname, fun _ hl => (List.not_mem_nil hl).elim, isValue_number _, rfl⟩
  have hall := Reads.blank.append (hhead.append hsample)
  have hopen : "\n# HELP hoplb_series_folded_total Series folded into domain \"" =
      "\n# HELP " ++ "hoplb_series_folded_total" ++ " " ++ "Series folded into domain \"" := rfl
  have htype : "# TYPE hoplb_series_folded_total counter\nhoplb_series_folded_total " =
      "# TYPE " ++ "hoplb_series_folded_total" ++ " " ++ "counter" ++ "\n" ++
        "hoplb_series_folded_total" ++ " " := rfl
  have hclose : " series)\n" = " series)" ++ "\n" := rfl
  have hhelpWord : "\n# HELP ".toList = ['\n', '#', ' ', 'H', 'E', 'L', 'P', ' '] := rfl
  have htypeWord : "# TYPE ".toList = ['#', ' ', 'T', 'Y', 'P', 'E', ' '] := rfl
  have hblank : " ".toList = [' '] := rfl
  have hfeed : "\n".toList = ['\n'] := rfl
  unfold foldedPairs at hall
  simp only [Exposition.helpText, Exposition.typeText, Sample.text, labelsText,
    List.append_assoc, List.cons_append, List.nil_append] at hall
  unfold renderFolded
  rw [if_pos h, hopen, htype, hclose]
  simp only [String.toList_append, hhelpWord, htypeWord, hblank, hfeed, List.append_assoc,
    List.cons_append, List.nil_append]
  exact hall

theorem reads_render [LinearOrder F] (hops : ops.Prints) (m : Metrics F) :
    Reads (m.render ops).1 ((document ops m).flatMap Family.items) := by
  have hfolded : Reads m.renderFolded
      ((if 0 < m.folded then [m.foldedPairs] else []).flatMap Family.items) := by
    by_cases h : 0 < m.folded
    · rw [if_pos h, List.flatMap_cons, List.flatMap_nil, List.append_nil]
      exact reads_folded m h
    · unfold renderFolded
      rw [if_neg h, if_neg h]
      exact .nil
  have hall := ((reads_requests m).append (reads_durations hops m)).append hfolded
  rw [← middle_eq] at hall
  rw [render, document, List.flatMap_append, List.flatMap_cons, List.flatMap_cons, List.flatMap_nil,
    List.append_nil]
  simp only [List.append_assoc] at hall ⊢
  exact hall

/-! ### No sample twice -/

theorem pairLabels_inj {d b d' b' : String} (h : pairLabels d b = pairLabels d' b') :
    d = d' ∧ b = b' := by
  obtain ⟨hd, hb⟩ := List.cons.inj h
  exact ⟨String.toList_injective (congrArg Prod.snd hd),
    String.toList_injective (congrArg Prod.snd (List.cons.inj hb).1)⟩

theorem number_injective {n n' : ℕ} (h : number n = number n') : n = n' := by
  have hdecimal : decimal n = decimal n' := congrArg utf8Chars h
  rw [← ofDigits_decimal n, hdecimal, ofDigits_decimal]

/-- Two series of the same domain and backend are one. -/
theorem series_nodup (m : Metrics F) {R : Series F → Series F → Prop}
    (h : ∀ s t, (s.domain = t.domain ∧ s.backend = t.backend → False) → R s t) :
    m.series.rows.Pairwise R :=
  m.series.sorted.imp fun {s t} hlt => h s t fun hpair => hlt.ne (pairKey_inj.mpr hpair)

theorem samples_requests (m : Metrics F) :
    m.requests.samples = m.requestCounts.map requestSample := rfl

theorem samples_durations [LinearOrder F] (ops : F64 F) (m : Metrics F) :
    (durations ops m).samples = m.series.rows.flatMap (latencies ops) := rfl

theorem requests_unique (m : Metrics F) : (m.requests.samples.map Sample.key).Nodup := by
  rw [samples_requests, requestCounts, List.map_map, List.map_flatMap]
  refine List.nodup_flatMap.mpr ⟨fun s _ => ?_, series_nodup m fun s t hne => ?_⟩
  · rw [List.map_map]
    refine List.pairwise_map.mpr (s.codes.sorted.imp fun {p q} hlt heq => hlt.ne ?_)
    have hlabels := List.append_cancel_left (congrArg Prod.snd heq)
    exact number_injective (congrArg Prod.snd (List.cons.inj hlabels).1)
  · intro k hs ht
    obtain ⟨x, hx, rfl⟩ := List.mem_map.mp hs
    obtain ⟨y, hy, heq⟩ := List.mem_map.mp ht
    obtain ⟨p, -, rfl⟩ := List.mem_map.mp hx
    obtain ⟨q, -, rfl⟩ := List.mem_map.mp hy
    have hlabels : pairLabels t.domain t.backend = pairLabels s.domain s.backend :=
      congrArg (fun k => k.2.take 2) heq
    obtain ⟨hd, hb⟩ := pairLabels_inj hlabels
    exact hne ⟨hd.symm, hb.symm⟩

/-- The labels of a latency begin with those of its series. -/
theorem take_latencies [LinearOrder F] {s : Series F} {x : Sample} (h : x ∈ latencies ops s) :
    x.labels.take 2 = pairLabels s.domain s.backend := by
  rw [latencies] at h
  split_ifs at h
  · cases h
  rcases List.mem_append.mp h with h | h
  · obtain ⟨y, -, rfl⟩ := List.mem_map.mp h
    rfl
  rcases List.mem_cons.mp h with rfl | h
  · rfl
  · rw [List.mem_singleton.mp h]
    rfl

theorem latencies_unique [LinearOrder F] (hops : ops.Prints) (s : Series F) :
    ((latencies ops s).map Sample.key).Nodup := by
  rw [latencies]
  split_ifs
  · exact List.nodup_nil
  have hlength : ops.quantiles.length ≤ (quantilesOf ops s).length := by
    rw [quantilesOf]
    split_ifs
    · rw [List.length_map]
    · rw [List.length_map]
  have hquantiles : (ops.quantiles.map (ops.fixed 2)).Nodup := by
    rw [hops.quantiles]
    decide
  have hcount : "hoplb_request_duration_seconds_count" ≠ "hoplb_request_duration_seconds_sum" := by
    decide
  rw [List.map_append]
  refine List.nodup_append.mpr ⟨?_, ?_, ?_⟩
  · rw [List.map_map]
    have hfirst : ((ops.quantiles.zip (quantilesOf ops s)).map fun x => ops.fixed 2 x.1).Nodup := by
      have hzip := List.map_fst_zip hlength
      have hmap := List.map_map (g := ops.fixed 2) (f := Prod.fst)
        (l := ops.quantiles.zip (quantilesOf ops s))
      rw [hzip] at hmap
      rw [hmap] at hquantiles
      exact hquantiles
    refine List.pairwise_map.mpr ((List.pairwise_map.mp hfirst).imp fun {x y} hne heq => hne ?_)
    have hlabels := List.append_cancel_left (congrArg Prod.snd heq)
    exact congrArg Prod.snd (List.cons.inj hlabels).1
  · refine List.nodup_cons.mpr ⟨fun hmem => hcount ?_, List.nodup_singleton _⟩
    exact String.toList_injective (congrArg Prod.fst (List.mem_singleton.mp hmem))
  · intro k hk k' hk' heq
    obtain ⟨x, hx, rfl⟩ := List.mem_map.mp hk
    obtain ⟨y, -, rfl⟩ := List.mem_map.mp hx
    have hlong : (quantileSample ops s y).key.2.length = 3 := rfl
    have hshort : k'.2.length = 2 := by
      rcases List.mem_cons.mp hk' with rfl | hk'
      · rfl
      · rw [List.mem_singleton.mp hk']
        rfl
    rw [heq, hshort] at hlong
    cases hlong

theorem durations_unique [LinearOrder F] (hops : ops.Prints) (m : Metrics F) :
    ((durations ops m).samples.map Sample.key).Nodup := by
  rw [samples_durations, List.map_flatMap]
  refine List.nodup_flatMap.mpr ⟨fun s _ => latencies_unique hops s, series_nodup m fun s t hne => ?_⟩
  intro k hs ht
  obtain ⟨x, hx, rfl⟩ := List.mem_map.mp hs
  obtain ⟨y, hy, heq⟩ := List.mem_map.mp ht
  have hlabels : y.labels = x.labels := congrArg Prod.snd heq
  have htake := take_latencies hy
  rw [hlabels, take_latencies hx] at htake
  exact hne (pairLabels_inj htake)

theorem names_counter {f : Family} (h : f.kind = "counter".toList) : f.names = [f.name] := by
  refine if_neg fun heq => ?_
  have hsummary : "summary".toList = ['s', 'u', 'm', 'm', 'a', 'r', 'y'] := rfl
  rw [h, ← hsummary] at heq
  exact absurd (String.toList_injective heq) (by decide)

/-- The names of the latencies. -/
def durationNames : List String :=
  ["hoplb_request_duration_seconds", "hoplb_request_duration_seconds_sum",
    "hoplb_request_duration_seconds_count"]

theorem names_durations [LinearOrder F] (ops : F64 F) (m : Metrics F) :
    (durations ops m).names = durationNames.map String.toList := by
  have hkind : (durations ops m).kind = ['s', 'u', 'm', 'm', 'a', 'r', 'y'] :=
    (rfl : "summary".toList = ['s', 'u', 'm', 'm', 'a', 'r', 'y'])
  have hsum : "hoplb_request_duration_seconds_sum" = "hoplb_request_duration_seconds" ++ "_sum" := rfl
  have hcount : "hoplb_request_duration_seconds_count" =
      "hoplb_request_duration_seconds" ++ "_count" := rfl
  have hsumWord : "_sum".toList = ['_', 's', 'u', 'm'] := rfl
  have hcountWord : "_count".toList = ['_', 'c', 'o', 'u', 'n', 't'] := rfl
  refine (if_pos hkind).trans ?_
  rw [durationNames, hsum, hcount]
  simp only [List.map_cons, List.map_nil, String.toList_append, hsumWord, hcountWord]
  rfl

/-- The samples of the latencies have the names of a summary. -/
theorem durations_owned [LinearOrder F] (ops : F64 F) (m : Metrics F) {x : Sample}
    (h : x ∈ (durations ops m).samples) : x.name ∈ (durations ops m).names := by
  rw [samples_durations] at h
  obtain ⟨s, -, hx⟩ := List.mem_flatMap.mp h
  rw [names_durations]
  rw [latencies] at hx
  split_ifs at hx
  · cases hx
  rcases List.mem_append.mp hx with hx | hx
  · obtain ⟨y, -, rfl⟩ := List.mem_map.mp hx
    exact List.mem_map_of_mem (a := "hoplb_request_duration_seconds") (by decide)
  rcases List.mem_cons.mp hx with rfl | hx
  · exact List.mem_map_of_mem (a := "hoplb_request_duration_seconds_count") (by decide)
  · rw [List.mem_singleton.mp hx]
    exact List.mem_map_of_mem (a := "hoplb_request_duration_seconds_sum") (by decide)

theorem requests_owned (m : Metrics F) {x : Sample} (h : x ∈ m.requests.samples) :
    x.name ∈ m.requests.names := by
  rw [samples_requests] at h
  obtain ⟨y, -, rfl⟩ := List.mem_map.mp h
  exact Exposition.name_mem_names m.requests

/-- The names of all metrics. -/
def allNames (folded : Bool) : List String :=
  "hoplb_requests_total" :: durationNames ++ if folded then ["hoplb_series_folded_total"] else []

theorem names_document [LinearOrder F] (ops : F64 F) (m : Metrics F) :
    (document ops m).flatMap Family.names =
      (allNames (decide (0 < m.folded))).map String.toList := by
  have hrequests : m.requests.names = ["hoplb_requests_total".toList] := names_counter rfl
  have hfolded : m.foldedPairs.names = ["hoplb_series_folded_total".toList] := names_counter rfl
  rw [document, List.flatMap_append, List.flatMap_cons, List.flatMap_cons, List.flatMap_nil,
    List.append_nil, hrequests, names_durations, allNames, List.map_append, List.map_cons]
  by_cases h : 0 < m.folded
  · rw [if_pos h, if_pos (decide_eq_true h), List.flatMap_cons, List.flatMap_nil, List.append_nil,
      hfolded]
    rfl
  · rw [if_neg h, if_neg (by rw [decide_eq_false h]; exact Bool.false_ne_true)]
    rfl

/-- **The text of the load balancer is read as its document**, and no sample of it stands twice. -/
theorem exposed [LinearOrder F] (hops : ops.Prints) (m : Metrics F) :
    Faithful (m.render ops).1 (document ops m) := by
  have hall : ∀ f ∈ document ops m,
      (∀ s ∈ f.samples, s.name ∈ f.names) ∧ (f.samples.map Sample.key).Nodup := by
    intro f hf
    rcases List.mem_append.mp hf with hf | hf
    · rcases List.mem_cons.mp hf with rfl | hf
      · exact ⟨fun s hs => requests_owned m hs, requests_unique m⟩
      · rw [List.mem_singleton.mp hf]
        exact ⟨fun s hs => durations_owned ops m hs, durations_unique hops m⟩
    · split_ifs at hf
      · rw [List.mem_singleton.mp hf]
        refine ⟨fun s hs => ?_, List.nodup_singleton _⟩
        rw [List.mem_singleton.mp hs]
        exact Exposition.name_mem_names m.foldedPairs
      · cases hf
  refine .of_reads (reads_render hops m) (fun f hf => (hall f hf).1) ?_ fun f hf => (hall f hf).2
  have hnodup : ∀ b, (allNames b).Nodup := by decide
  rw [names_document]
  exact (hnodup _).map fun _ _ => String.toList_injective

end Metrics

end Hop.Hoplb
