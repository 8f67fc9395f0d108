import ItchOrderbook.ExitStatus

/-!
# What the replays print

The report of a session for a symbol, read off the list of its resting orders
and nothing else: no queues, no maps of levels, no cached totals. On the sessions
they are meant for, both replays print this report.
-/

namespace Itch

open ByteFields CheckedRuns PrefixCode

/-- The best of the prices of a side: buyers bid high, sellers ask low. -/
def BookSide.bestPrice : BookSide → List ℕ → Option ℕ
  | .bids, prices => prices.max?
  | .asks, prices => prices.min?

/-- The best price of a side and the shares resting there, from the list alone. -/
def bestOf (L : List Entry) (s : BookSide) : Option (ℕ × ℤ) :=
  (s.bestPrice ((pricesOf L s).map UInt32.toNat)).map fun price => (price, (sumAt L s price : ℤ))

/-- The report of a session that left this view, and stopped at this offset if it did. -/
def SymbolView.report (v : SymbolView) (stopped : Option ℕ) : ReplayReport where
  resolved := v.locate.isSome
  locate := v.locate.map UInt16.toNat
  tallies := v.tallies
  restingOrders := v.orders.length
  bidLevels := (pricesOf v.orders .bids).length
  askLevels := (pricesOf v.orders .asks).length
  bestBid := bestOf v.orders .bids
  bestAsk := bestOf v.orders .asks
  stopped := stopped

/-- A price that is no worse than the others is the best one. -/
theorem bestPrice_eq {s : BookSide} {p : PriceTicks} {prices : List PriceTicks} (hp : p ∈ prices)
    (hnoworse : ∀ q ∈ prices, s.NoWorse p q) :
    s.bestPrice (prices.map UInt32.toNat) = some p.toNat := by
  have hkey : p.toNat ∈ prices.map UInt32.toNat := List.mem_map_of_mem hp
  cases s with
  | bids =>
    rw [BookSide.bestPrice, List.max?_eq_some_iff]
    refine ⟨hkey, fun k hk => ?_⟩
    obtain ⟨q, hq, rfl⟩ := List.mem_map.mp hk
    exact UInt32.le_iff_toNat_le.mp (hnoworse q hq)
  | asks =>
    rw [BookSide.bestPrice, List.min?_eq_some_iff]
    refine ⟨hkey, fun k hk => ?_⟩
    obtain ⟨q, hq, rfl⟩ := List.mem_map.mp hk
    exact UInt32.le_iff_toNat_le.mp (hnoworse q hq)

/-- A best level is the best price of the list, with the shares listed there. -/
theorem bestOf_eq {L : List Entry} {s : BookSide} {best : Option BookLevel}
    (h : IsBest L s best) : best.map BookLevel.printed = bestOf L s := by
  cases best with
  | none =>
    have hempty : pricesOf L s = [] := by
      rw [List.eq_nil_iff_forall_not_mem]
      intro p hp
      obtain ⟨e, he, hs, _⟩ := mem_pricesOf.mp hp
      exact h e he hs
    rw [bestOf, hempty]
    cases s <;> rfl
  | some best =>
    obtain ⟨hmem, hnoworse, hshares⟩ := h
    rw [bestOf, bestPrice_eq hmem hnoworse, Option.map_some, Option.map_some, BookLevel.printed,
      hshares, sharesAt_eq]

example : bestOf [⟨1, .bids, 9, 100⟩, ⟨2, .bids, 8, 5⟩, ⟨3, .bids, 9, 7⟩] .bids =
    some (9, 107) := by
  decide

/-- A replay that holds a view reports the view. -/
theorem BookReplayHandler.Refines.report_eq {handler : BookReplayHandler} {v : SymbolView}
    (h : handler.Refines v) (hlen : v.orders.length < 2 ^ 32)
    (htallies : ∀ t, v.tallies t < 2 ^ 64) (outcome : FrameOutcome) :
    handler.report outcome = v.report (outcome.error.map fun _ => outcome.errorOffset) := by
  have hmirrors := h.orders.mirrors hlen
  have hlocate : (if handler.book.locate = 0 then none else some handler.book.locate.toNat) =
      v.locate.map UInt16.toNat := by
    rw [h.locate]
    cases hl : v.locate with
    | none => rfl
    | some l => exact if_neg (h.nonzero l hl)
  have htally : (fun t => (handler.book.stats.get t).toNat) = v.tallies := by
    funext t
    rw [h.tallies, UInt64.toNat_ofNat_of_lt' (htallies t)]
  rw [BookReplayHandler.report, SymbolView.report, hlocate, htally, h.resolved,
    hmirrors.orderCount, hmirrors.bidLevelCount, hmirrors.askLevelCount,
    bestOf_eq hmirrors.bestBid, bestOf_eq hmirrors.bestAsk]

/-- What a `main` prints of a session: the report of the view, if there is a locate to report. -/
def SymbolView.printed (v : SymbolView) (stopped : Option ℕ) : Option ReplayReport :=
  if v.locate.isSome then some (v.report stopped) else none

/-- On a session they are meant for, both replays print what the list of the symbol's resting
orders comes to, and stop where framing does. The C++ one has to be given a file that is not
empty. -/
theorem replays_print_view (build : Build) {file : List UInt8} {symbol : Positional}
    (hsymbol : symbol.bytes.getLast? ≠ some ' '.toUInt8) {frames : List (List UInt8)}
    {rest : List UInt8} (h : Parses itchCode frames rest file)
    (hsession : ReplayableSession symbol.bytes frames) :
    ∃ outcome handler book resolved error,
      parseAll build (BookReplayHandler.on build symbol.bytes) file {} = .ok (outcome, handler) ∧
      replay file symbol.bytes = .ok (book, resolved, error) ∧
      handler.report outcome = (viewOf symbol.bytes frames).report
        (if rest = [] then none else some frames.flatten.length) ∧
      book.report resolved error = (viewOf symbol.bytes frames).report
        (if rest = [] then none else some frames.flatten.length) ∧
      (file ≠ [] → (bookReplay file symbol.bytes).map Prod.snd =
        .ok ((viewOf symbol.bytes frames).printed
          (if rest = [] then none else some frames.flatten.length))) ∧
      (referenceBook file symbol).2 = (viewOf symbol.bytes frames).printed
        (if rest = [] then none else some frames.flatten.length) := by
  obtain ⟨state, hscript, hstate⟩ := run_script hsymbol h.isWord hsession
  have hlen : (viewOf symbol.bytes frames).orders.length < 2 ^ 32 :=
    length_viewOf_le.trans_lt hsession.few
  have htallies : ∀ t, (viewOf symbol.bytes frames).tallies t < 2 ^ 64 := fun t =>
    ((tallies_viewOf_le t).trans_lt hsession.few).trans (by decide)
  have hoffset : ((sessionOutcome frames.length frames.flatten.length rest).error.map fun _ =>
      (sessionOutcome frames.length frames.flatten.length rest).errorOffset) =
        if rest = [] then none else some frames.flatten.length := by
    by_cases hrest : rest = []
    · simp [sessionOutcome, hrest]
    · simp [sessionOutcome, hrest]
  have hstop := (leftover_reported h.stuck frames.length frames.flatten.length).2
  -- the handler, in whichever build
  have hcpp : ∀ build, ∃ handler,
      parseAll build (BookReplayHandler.on build symbol.bytes) file {} =
        .ok (sessionOutcome frames.length frames.flatten.length rest, handler) ∧
      handler.resolved = (viewOf symbol.bytes frames).locate.isSome ∧
      handler.report (sessionOutcome frames.length frames.flatten.length rest) =
        (viewOf symbol.bytes frames).report
          (if rest = [] then none else some frames.flatten.length) ∧
      handler.report (sessionOutcome frames.length frames.flatten.length rest) =
        state.book.report state.resolved (leftover rest frames.flatten.length) := by
    intro build
    obtain ⟨handler, hhandler, hbook⟩ := run_handler build hsession
    have hprinted := hbook.report_eq hlen htallies
      (sessionOutcome frames.length frames.flatten.length rest)
    rw [hoffset] at hprinted
    refine ⟨handler, ?_, hbook.resolved, hprinted,
      report_eq hbook hstate hlen htallies hstop.symm⟩
    rw [parseAll_eq _ h fun _ => hsession.sides, hhandler]
    rfl
  obtain ⟨handler, hparse, -, hprinted, hsame⟩ := hcpp build
  obtain ⟨plain, hplain, hresolved, hreport, -⟩ := hcpp .relWithDebInfo
  have hrun : run (scriptStep (Replay.onRecord (ljust 8 symbol.bytes))) {} frames = .ok state :=
    hscript
  have hreplay : replay file symbol.bytes =
      .ok (state.book, state.resolved, leftover rest frames.flatten.length) := by
    rw [replay_frames h hsession.utf8, hrun]
    rfl
  refine ⟨_, handler, _, _, _, hparse, hreplay, hprinted, hsame.symm.trans hprinted, ?_, ?_⟩
  · intro hfile
    rw [bookReplay, if_neg hfile, hplain, ok_bind, SymbolView.printed]
    cases hlocate : (viewOf symbol.bytes frames).locate.isSome with
    | false =>
      simp only [hresolved, hlocate]
      rfl
    | true =>
      simp only [hresolved, hlocate]
      exact congrArg (fun report => Except.ok (some report)) hreport
  · rw [referenceBook, hreplay, SymbolView.printed, ← hstate.resolved]
    cases hlocate : state.resolved with
    | false => rfl
    | true =>
      rw [hlocate, hprinted] at hsame
      exact congrArg some hsame.symm

/-- An announcement, a buy order of 100 shares at price 9, and a byte too many. -/
theorem replays_print_view_one_order :
    ∃ outcome handler book resolved error,
      parseAll .debug (BookReplayHandler.on .debug symbolAB.bytes)
        (directoryAB ++ (buyHundred ++ [0])) {} = .ok (outcome, handler) ∧
      replay (directoryAB ++ (buyHundred ++ [0])) symbolAB.bytes =
        .ok (book, resolved, error) ∧
      handler.report outcome =
        (viewOf symbolAB.bytes [directoryAB, buyHundred]).report
          (if [(0 : UInt8)] = [] then none
            else some ([directoryAB, buyHundred].flatten : List UInt8).length) ∧
      book.report resolved error =
        (viewOf symbolAB.bytes [directoryAB, buyHundred]).report
          (if [(0 : UInt8)] = [] then none
            else some ([directoryAB, buyHundred].flatten : List UInt8).length) ∧
      (directoryAB ++ (buyHundred ++ [0]) ≠ [] →
        (bookReplay (directoryAB ++ (buyHundred ++ [0])) symbolAB.bytes).map Prod.snd =
          .ok ((viewOf symbolAB.bytes [directoryAB, buyHundred]).printed
            (if [(0 : UInt8)] = [] then none
              else some ([directoryAB, buyHundred].flatten : List UInt8).length))) ∧
      (referenceBook (directoryAB ++ (buyHundred ++ [0])) symbolAB).2 =
        (viewOf symbolAB.bytes [directoryAB, buyHundred]).printed
          (if [(0 : UInt8)] = [] then none
            else some ([directoryAB, buyHundred].flatten : List UInt8).length) := by
  have hdirectory : IsFrame directoryAB := ⟨_, _, _, _, rfl, by decide, by decide +kernel⟩
  have hbuy : IsFrame buyHundred := ⟨_, _, _, _, rfl, by decide, by decide +kernel⟩
  have hstuck : Stuck itchCode [0] := by
    rintro w ⟨hi, lo, type, tail, rfl, _, _⟩ hpre
    simpa using hpre.length_le
  have hsession : ReplayableSession symbolAB.bytes [directoryAB, buyHundred] :=
    ⟨isUtf8_ascii (by decide +kernel), by decide +kernel, by decide +kernel, by decide,
      by decide +kernel⟩
  exact replays_print_view .debug (by decide)
    (parses_cons hdirectory (parses_cons hbuy (parses_stuck hstuck))) hsession

end Itch
