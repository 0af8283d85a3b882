import SklaffKom.Lib.Split
import SklaffKom.Stdio

/-!
# URLs without tracking parameters

`clean_url` copies a URL and leaves out the parameters of its query that `is_tracking_param` accepts.
-/

open CString

namespace SklaffKom

def isTrackingParam (key : CString) : Bool :=
  "utm_".toList.isPrefixOf key || key == "ecid".toList || key == "_hsenc".toList ||
    key == "_hsmi".toList || key == "hsCtaTracking".toList

/-- The key of a parameter: what stands before `=`. -/
def paramKey (param : CString) : CString :=
  param.takeWhile (· ≠ '=')

def isParamChar (c : Char) : Bool :=
  c ≠ '&' && c ≠ '#'

/-- What is left behind a parameter, without the `&` after it. -/
def paramEnd (p : CString) : CString :=
  match p.dropWhile isParamChar with
  | '&' :: rest => rest
  | rest => rest

theorem length_paramEnd_lt {p : CString} {c : Char} (hc : c ≠ '#') :
    (paramEnd (c :: p)).length < (c :: p).length := by
  by_cases hamp : c = '&'
  · subst hamp
    exact Nat.lt_add_one _
  · have hdrop : (c :: p).dropWhile isParamChar = p.dropWhile isParamChar :=
      List.dropWhile_cons_of_pos (by simp [isParamChar, hamp, hc])
    have hle : (p.dropWhile isParamChar).length ≤ p.length :=
      (List.dropWhile_suffix _).length_le
    rw [paramEnd, hdrop, List.length_cons]
    split
    · next heq =>
      rw [heq, List.length_cons] at hle
      omega
    · omega

/-- The loop over the query: what is written, and whether something was left out. -/
def cleanUrlLoop (first changed : Bool) : CString → CString × Bool
  | [] => ([], changed)
  | c :: p =>
    if c = '#' then (c :: p, changed)
    else
      let param := (c :: p).takeWhile isParamChar
      if isTrackingParam (paramKey param) then cleanUrlLoop first true (paramEnd (c :: p))
      else
        let (out, changed) := cleanUrlLoop false changed (paramEnd (c :: p))
        ((if first then '?' else '&') :: (param ++ out), changed)
termination_by p => p.length
decreasing_by all_goals exact length_paramEnd_lt ‹_›

/-- `clean_url` with `*changed` -/
def cleanUrl (url : CString) : CString × Bool :=
  match cutAt '?' url with
  | none => (url, false)
  | some (base, query) =>
    if '#' ∈ base then (url, false)
    else
      let (out, changed) := cleanUrlLoop true false query
      (base ++ out, changed)

/-! ## What is expected -/

/-- A fragment: nothing, or what begins with `#`. -/
def IsFragment (frag : CString) : Prop :=
  frag = [] ∨ ∃ rest, frag = '#' :: rest

structure UrlParts where
  base : CString
  params : List CString
  fragment : CString
  base_mark : '?' ∉ base
  base_hash : '#' ∉ base
  params_ne : params ≠ []
  params_amp : ∀ param ∈ params, '&' ∉ param
  params_hash : ∀ param ∈ params, '#' ∉ param
  fragment_isFragment : IsFragment fragment

/-- A query with these parameters, with the `?` before it. -/
def joinQuery : List CString → CString
  | [] => []
  | params => '?' :: ['&'].intercalate params

def UrlParts.url (u : UrlParts) : CString :=
  u.base ++ joinQuery u.params ++ u.fragment

/-- `is_tracking_param` on the key of a parameter. -/
def Tracking (param : CString) : Bool :=
  isTrackingParam (paramKey param)

/-- The parameters that are to stay. -/
def UrlParts.kept (u : UrlParts) : List CString :=
  u.params.filter fun param => !Tracking param

/-- The tracking parameters are removed from a URL, and nothing else. -/
structure CleansUrl (url : CString) : Prop where
  kept : ∀ u : UrlParts, u.url = url → (cleanUrl url).1 = u.base ++ joinQuery u.kept ++ u.fragment
  changed : (cleanUrl url).2 = true ↔
    ∃ u : UrlParts, u.url = url ∧ ∃ param ∈ u.params, Tracking param
  same : (∀ u : UrlParts, u.url = url → ∀ param ∈ u.params, ¬Tracking param) →
    (cleanUrl url).1 = url
  twice : (cleanUrl (cleanUrl url).1).1 = (cleanUrl url).1

/-- The last parameter that is to stay, if there is one, is not empty. -/
def LastKept (url : CString) : Prop :=
  ∀ u : UrlParts, u.url = url → u.kept.getLast? ≠ some []

/-! ## The loop -/

section Loop

variable {param r frag : CString} {params : List CString}

/-- What the loop writes for these parameters. -/
def writtenParams : Bool → List CString → CString
  | _, [] => []
  | first, param :: params =>
    (if first then '?' else '&') :: (param ++ writtenParams false params)

/-- An empty parameter at the end is not seen by the loop. -/
def seenParams (params : List CString) : List CString :=
  if params.getLast? = some [] then params.dropLast else params

theorem writtenParams_false (h : params ≠ []) :
    writtenParams false params = '&' :: ['&'].intercalate params := by
  induction params with
  | nil => exact absurd rfl h
  | cons param params ih =>
    cases params with
    | nil => simp [writtenParams]
    | cons param' params =>
      rw [writtenParams, ih (List.cons_ne_nil _ _), List.intercalate_cons_cons, List.append_assoc]
      rfl

theorem writtenParams_true (params : List CString) :
    writtenParams true params = joinQuery params := by
  cases params with
  | nil => rfl
  | cons param params =>
    rw [writtenParams, joinQuery.eq_2 _ (List.cons_ne_nil _ _)]
    by_cases h : params = []
    · simp [h, writtenParams]
    · rw [writtenParams_false h, List.intercalate_cons_of_ne_nil h, List.append_assoc]
      rfl

theorem seenParams_cons (h : params ≠ []) :
    seenParams (param :: params) = param :: seenParams params := by
  rw [seenParams, seenParams, List.getLast?_cons_of_ne_nil h, List.dropLast_cons_of_ne_nil h]
  split <;> rfl

/-- Every character of a parameter is one. -/
theorem isParamChar_of_mem {c : Char} (hamp : '&' ∉ param) (hhash : '#' ∉ param) (hc : c ∈ param) :
    isParamChar c := by
  have h₁ : c ≠ '&' := fun h => hamp (h ▸ hc)
  have h₂ : c ≠ '#' := fun h => hhash (h ▸ hc)
  simp [isParamChar, h₁, h₂]

theorem takeWhile_amp (hamp : '&' ∉ param) (hhash : '#' ∉ param) :
    (param ++ '&' :: r).takeWhile isParamChar = param ∧ paramEnd (param ++ '&' :: r) = r := by
  have hall : ∀ c ∈ param, isParamChar c := fun c => isParamChar_of_mem hamp hhash
  constructor
  · rw [List.takeWhile_append_of_pos hall]
    simp [isParamChar]
  · rw [paramEnd, List.dropWhile_append_of_pos hall]
    rfl

theorem takeWhile_fragment (hamp : '&' ∉ param) (hhash : '#' ∉ param) (hfrag : IsFragment frag) :
    (param ++ frag).takeWhile isParamChar = param ∧ paramEnd (param ++ frag) = frag := by
  have hall : ∀ c ∈ param, isParamChar c := fun c => isParamChar_of_mem hamp hhash
  rw [paramEnd, List.takeWhile_append_of_pos hall, List.dropWhile_append_of_pos hall]
  rcases hfrag with rfl | ⟨tail, rfl⟩
  · simp
  · simp [isParamChar]

theorem cleanUrlLoop_fragment (hfrag : IsFragment frag) (first changed : Bool) :
    cleanUrlLoop first changed frag = (frag, changed) := by
  rcases hfrag with rfl | ⟨tail, rfl⟩
  · rw [cleanUrlLoop]
  · rw [cleanUrlLoop, if_pos rfl]

/-- One turn of the loop. -/
theorem cleanUrlLoop_turn {p : CString} (hne : p ≠ []) (hhead : p.head? ≠ some '#')
    (hparam : p.takeWhile isParamChar = param) (hrest : paramEnd p = r) (first changed : Bool) :
    cleanUrlLoop first changed p =
      if Tracking param then cleanUrlLoop first true r
      else ((if first then '?' else '&') :: (param ++ (cleanUrlLoop false changed r).1),
        (cleanUrlLoop false changed r).2) := by
  cases p with
  | nil => exact absurd rfl hne
  | cons c p =>
    have hc : c ≠ '#' := fun h => hhead (by rw [h]; rfl)
    rw [cleanUrlLoop, if_neg hc, hparam, hrest]
    rfl

theorem head?_append_ne (hhash : '#' ∉ param) (hrest : r.head? ≠ some '#') :
    (param ++ r).head? ≠ some '#' := by
  cases param with
  | nil => exact hrest
  | cons c param =>
    intro h
    exact hhash (by rw [Option.some.inj h]; exact List.mem_cons_self)

/-- The loop over a query: the parameters that it sees and that are not tracking ones. -/
theorem cleanUrlLoop_eq (hfrag : IsFragment frag) (hne : params ≠ [])
    (hamp : ∀ param ∈ params, '&' ∉ param) (hhash : ∀ param ∈ params, '#' ∉ param)
    (first changed : Bool) :
    cleanUrlLoop first changed (['&'].intercalate params ++ frag) =
      (writtenParams first ((seenParams params).filter fun param => !Tracking param) ++ frag,
        changed || params.any Tracking) := by
  induction params generalizing first changed with
  | nil => exact absurd rfl hne
  | cons param params ih =>
    have hamp₁ : '&' ∉ param := hamp param List.mem_cons_self
    have hhash₁ : '#' ∉ param := hhash param List.mem_cons_self
    by_cases hlast : params = []
    · subst hlast
      rw [List.intercalate_singleton]
      by_cases hempty : param = []
      · subst hempty
        rw [List.nil_append, cleanUrlLoop_fragment hfrag]
        have hseen : seenParams [([] : CString)] = [] := rfl
        have htrack : [([] : CString)].any Tracking = false := by decide
        rw [hseen, htrack, Bool.or_false]
        rfl
      · obtain ⟨htake, hend⟩ := takeWhile_fragment hamp₁ hhash₁ hfrag
        have hhead : (param ++ frag).head? ≠ some '#' := by
          cases param with
          | nil => exact absurd rfl hempty
          | cons c param =>
            intro h
            exact hhash₁ (by rw [Option.some.inj h]; exact List.mem_cons_self)
        have hseen : seenParams [param] = [param] := by
          rw [seenParams, if_neg (by simpa using hempty)]
        rw [cleanUrlLoop_turn (by simp [hempty]) hhead htake hend, hseen]
        by_cases htrack : Tracking param
        · simp [htrack, cleanUrlLoop_fragment hfrag, writtenParams]
        · simp [htrack, cleanUrlLoop_fragment hfrag, writtenParams]
    · have hquery : ['&'].intercalate (param :: params) ++ frag =
          param ++ '&' :: (['&'].intercalate params ++ frag) := by
        rw [List.intercalate_cons_of_ne_nil hlast]
        simp
      obtain ⟨htake, hend⟩ := takeWhile_amp (r := ['&'].intercalate params ++ frag) hamp₁ hhash₁
      have hhead := head?_append_ne (r := '&' :: (['&'].intercalate params ++ frag)) hhash₁
        (by simp)
      have ih' := ih hlast (fun p hp => hamp p (List.mem_cons_of_mem _ hp))
        (fun p hp => hhash p (List.mem_cons_of_mem _ hp))
      rw [hquery, cleanUrlLoop_turn (by simp) hhead htake hend, seenParams_cons hlast, ih', ih']
      by_cases htrack : Tracking param
      · simp [htrack]
      · simp [htrack, writtenParams]

end Loop

/-! ## The whole URL -/

section Parts

variable {url : CString} {params : List CString}

theorem tracking_nil : Tracking [] = false := by decide

theorem cleanUrl_url (u : UrlParts) :
    cleanUrl u.url =
      (u.base ++ joinQuery ((seenParams u.params).filter fun param => !Tracking param) ++ u.fragment,
        u.params.any Tracking) := by
  have hurl : u.url = u.base ++ '?' :: (['&'].intercalate u.params ++ u.fragment) := by
    rw [UrlParts.url, joinQuery.eq_2 _ u.params_ne, List.append_assoc]
    rfl
  rw [hurl, cleanUrl, cutAt_append u.base_mark]
  show (if '#' ∈ u.base then _ else _) = _
  rw [if_neg u.base_hash, cleanUrlLoop_eq u.fragment_isFragment u.params_ne u.params_amp u.params_hash,
    writtenParams_true, Bool.false_or, List.append_assoc]

/-- What stands behind the `?` is a query and a fragment. -/
theorem exists_parts {base rest : CString} (hmark : '?' ∉ base) (hhash : '#' ∉ base) :
    ∃ u : UrlParts, u.url = base ++ '?' :: rest := by
  obtain ⟨query, frag, hquery, hfrag, rfl⟩ :
      ∃ query frag, '#' ∉ query ∧ IsFragment frag ∧ rest = query ++ frag := by
    by_cases h : '#' ∈ rest
    · obtain ⟨query, tail, rfl, hquery⟩ := List.eq_append_cons_of_mem h
      exact ⟨query, '#' :: tail, hquery, .inr ⟨tail, rfl⟩, rfl⟩
    · exact ⟨rest, [], h, .inl rfl, (List.append_nil _).symm⟩
  have hne : query.splitOn '&' ≠ [] := List.splitOn_ne_nil _ _
  refine ⟨⟨base, query.splitOn '&', frag, hmark, hhash, hne, fun p => Split.notMem_of_mem_splitOn,
    fun p hp hc => hquery (Split.mem_of_mem_splitOn hp hc), hfrag⟩, ?_⟩
  show base ++ joinQuery (query.splitOn '&') ++ frag = _
  rw [joinQuery.eq_2 _ hne, List.intercalate_splitOn, List.append_assoc]
  rfl

/-- A URL without a query is copied. -/
theorem cleanUrl_plain (h : ∀ u : UrlParts, u.url ≠ url) : cleanUrl url = (url, false) := by
  by_cases hmark : '?' ∈ url
  · obtain ⟨base, rest, rfl, hbase⟩ := List.eq_append_cons_of_mem hmark
    by_cases hhash : '#' ∈ base
    · rw [cleanUrl, cutAt_append hbase]
      show (if '#' ∈ base then _ else _) = _
      rw [if_pos hhash]
    · obtain ⟨u, hu⟩ := exists_parts hbase hhash
      exact absurd hu (h u)
  · rw [cleanUrl, cutAt_none hmark]

/-- The part before `?` and the fragment alone have no query. -/
theorem cleanUrl_base (u : UrlParts) : cleanUrl (u.base ++ u.fragment) = (u.base ++ u.fragment, false) := by
  rcases u.fragment_isFragment with hfrag | ⟨tail, hfrag⟩
  · rw [hfrag, List.append_nil, cleanUrl, cutAt_none u.base_mark]
  · by_cases hmark : '?' ∈ tail
    · obtain ⟨mid, rest, rfl, hmid⟩ := List.eq_append_cons_of_mem hmark
      have hbase : '?' ∉ u.base ++ '#' :: mid := by
        simp [u.base_mark, hmid]
      have hcut : u.base ++ '#' :: (mid ++ '?' :: rest) = (u.base ++ '#' :: mid) ++ '?' :: rest := by
        rw [List.append_assoc]
        rfl
      rw [hfrag, hcut, cleanUrl, cutAt_append hbase]
      show (if '#' ∈ u.base ++ '#' :: mid then _ else _) = _
      rw [if_pos (by simp)]
    · have hnone : '?' ∉ u.base ++ u.fragment := by
        simp [hfrag, u.base_mark, hmark]
      rw [cleanUrl, cutAt_none hnone]

/-- Another list of parameters in the same URL. -/
def UrlParts.withKept (u : UrlParts) (h : u.kept ≠ []) : UrlParts :=
  { u with
    params := u.kept
    params_ne := h
    params_amp := fun param hp => u.params_amp param (List.mem_of_mem_filter hp)
    params_hash := fun param hp => u.params_hash param (List.mem_of_mem_filter hp) }

theorem length_writtenParams_concat (first : Bool) (params : List CString) :
    (writtenParams first (params ++ [[]])).length = (writtenParams first params).length + 1 := by
  induction params generalizing first with
  | nil => simp [writtenParams]
  | cons param params ih =>
    simp only [List.cons_append, writtenParams, List.length_cons, List.length_append, ih]
    omega

/-- The query comes out as expected unless its last parameter is empty. -/
theorem joinQuery_seen_iff :
    joinQuery ((seenParams params).filter fun param => !Tracking param) =
        joinQuery (params.filter fun param => !Tracking param) ↔ params.getLast? ≠ some [] := by
  by_cases h : params.getLast? = some []
  · have hsplit : params = params.dropLast ++ [[]] :=
      (List.dropLast_append_getLast? _ (Option.mem_def.mpr h)).symm
    have hfilter : (params.filter fun param => !Tracking param) =
        (params.dropLast.filter fun param => !Tracking param) ++ [[]] := by
      conv_lhs => rw [hsplit]
      rw [List.filter_append, List.filter_cons_of_pos (by simp [tracking_nil]), List.filter_nil]
    refine iff_of_false (fun heq => ?_) (not_not_intro h)
    rw [seenParams, if_pos h, hfilter, ← writtenParams_true, ← writtenParams_true] at heq
    have hlen := congrArg List.length heq
    rw [length_writtenParams_concat] at hlen
    omega
  · rw [seenParams, if_neg h]
    exact iff_of_true rfl h

/-- An empty parameter is not a tracking one. -/
theorem getLast?_kept {u : UrlParts} (h : u.params.getLast? = some []) :
    u.kept.getLast? = some [] := by
  have hsplit := List.dropLast_append_getLast? _ (Option.mem_def.mpr h)
  rw [UrlParts.kept, ← hsplit, List.filter_append, List.filter_cons_of_pos (by simp [tracking_nil])]
  simp

/-- The kept parameters stay when they are looked at again. -/
theorem filter_kept (u : UrlParts) : (u.kept.filter fun param => !Tracking param) = u.kept := by
  rw [UrlParts.kept, List.filter_filter]
  simp

theorem cleanUrl_withKept {u : UrlParts} (h : u.kept ≠ []) :
    (cleanUrl (u.withKept h).url).1 = (u.withKept h).url ↔ u.kept.getLast? ≠ some [] := by
  have hurl : (u.withKept h).url = u.base ++ joinQuery u.kept ++ u.fragment := rfl
  rw [cleanUrl_url, hurl]
  show u.base ++ joinQuery ((seenParams u.kept).filter _) ++ u.fragment = _ ↔ _
  rw [List.append_left_inj, List.append_right_inj, ← joinQuery_seen_iff, filter_kept]

end Parts

/-! ## Nothing is added -/

theorem paramEnd_suffix (p : CString) : paramEnd p <:+ p := by
  have hdrop : p.dropWhile isParamChar <:+ p := List.dropWhile_suffix _
  rw [paramEnd]
  split
  · next rest heq =>
    rw [heq] at hdrop
    exact (List.suffix_cons _ _).trans hdrop
  · exact hdrop

theorem cleanUrlLoop_sublist (first changed : Bool) (p : CString) :
    (cleanUrlLoop first changed p).1.Sublist ((if first then '?' else '&') :: p) := by
  induction hn : p.length using Nat.strongRecOn generalizing first changed p with
  | ind n ih =>
    cases p with
    | nil =>
      rw [cleanUrlLoop]
      exact List.nil_sublist _
    | cons c p =>
      by_cases hc : c = '#'
      · rw [cleanUrlLoop, if_pos hc]
        exact List.sublist_cons_self _ _
      · have hlt : (paramEnd (c :: p)).length < n := hn ▸ length_paramEnd_lt hc
        -- what follows a parameter that is kept
        have hrest : ∀ changed, (cleanUrlLoop false changed (paramEnd (c :: p))).1.Sublist
            ((c :: p).dropWhile isParamChar) := by
          intro changed
          have hnext := ih _ hlt false changed _ rfl
          revert hnext
          rw [paramEnd]
          cases hd : (c :: p).dropWhile isParamChar with
          | nil =>
            intro _
            show (cleanUrlLoop false changed []).1.Sublist []
            rw [cleanUrlLoop]
          | cons d r =>
            by_cases hamp : d = '&'
            · subst hamp
              exact id
            · have hhash : d = '#' := by
                have hnot := dropWhile_head hd
                simp only [isParamChar, Bool.and_eq_false_iff, ne_eq, decide_eq_false_iff_not,
                  not_not] at hnot
                exact hnot.resolve_left hamp
              subst hhash
              intro _
              show (cleanUrlLoop false changed ('#' :: r)).1.Sublist ('#' :: r)
              rw [cleanUrlLoop, if_pos rfl]
        rw [cleanUrlLoop, if_neg hc]
        dsimp only
        by_cases htrack : isTrackingParam (paramKey ((c :: p).takeWhile isParamChar))
        · rw [if_pos htrack]
          exact (ih _ hlt first true _ rfl).trans ((paramEnd_suffix _).sublist.cons_cons _)
        · rw [if_neg htrack]
          refine List.Sublist.cons_cons _ ?_
          conv_rhs => rw [← List.takeWhile_append_dropWhile (p := isParamChar) (l := c :: p)]
          exact (List.Sublist.refl _).append (hrest changed)

/-- Characters are only removed. -/
theorem cleanUrl_sublist (url : CString) : (cleanUrl url).1.Sublist url := by
  by_cases hmark : '?' ∈ url
  · obtain ⟨base, rest, rfl, hbase⟩ := List.eq_append_cons_of_mem hmark
    rw [cleanUrl, cutAt_append hbase]
    show (if '#' ∈ base then _ else _ : CString × Bool).1.Sublist _
    split
    · exact List.Sublist.refl _
    · exact (List.Sublist.refl base).append (cleanUrlLoop_sublist true false rest)
  · rw [cleanUrl, cutAt_none hmark]

/-- What stands before the query stays. -/
theorem isPrefixOf_cleanUrl {pat url : CString} (hpat : '?' ∉ pat) (h : pat.isPrefixOf url = true) :
    pat.isPrefixOf (cleanUrl url).1 = true := by
  by_cases hmark : '?' ∈ url
  · obtain ⟨base, rest, rfl, hbase⟩ := List.eq_append_cons_of_mem hmark
    have hbefore : pat <+: base := by
      obtain ⟨tail, htail⟩ := List.isPrefixOf_iff_prefix.mp h
      rcases List.append_eq_append_iff.mp htail with ⟨mid, hmid, -⟩ | ⟨mid, hmid, htl⟩
      · exact ⟨mid, hmid.symm⟩
      · cases mid with
        | nil => exact ⟨[], by rw [List.append_nil, hmid, List.append_nil]⟩
        | cons d mid =>
          rw [List.cons_append] at htl
          rw [← (List.cons.inj htl).1] at hmid
          exact absurd (by rw [hmid]; simp) hpat
    refine List.isPrefixOf_iff_prefix.mpr ?_
    rw [cleanUrl, cutAt_append hbase]
    show pat <+: (if '#' ∈ base then _ else _ : CString × Bool).1
    split
    · exact hbefore.trans (List.prefix_append _ _)
    · exact hbefore.trans (List.prefix_append _ _)
  · rw [cleanUrl, cutAt_none hmark]
    exact h

/-! ## Results -/

theorem cleansUrl_of_lastKept {url : CString} (h : LastKept url) : CleansUrl url := by
  by_cases hurl : ∃ u : UrlParts, u.url = url
  · obtain ⟨u, rfl⟩ := hurl
    have hlast : u.params.getLast? ≠ some [] := fun heq => h u rfl (getLast?_kept heq)
    have hclean : cleanUrl u.url = (u.base ++ joinQuery u.kept ++ u.fragment, u.params.any Tracking) := by
      rw [cleanUrl_url, joinQuery_seen_iff.mpr hlast]
      rfl
    have hany : u.params.any Tracking = true ↔ ∃ param ∈ u.params, Tracking param :=
      List.any_eq_true
    refine ⟨fun v hv => ?_, ?_, fun hnone => ?_, ?_⟩
    · have hlast' : v.params.getLast? ≠ some [] := fun heq => h v hv (getLast?_kept heq)
      rw [← hv, cleanUrl_url, joinQuery_seen_iff.mpr hlast']
      rfl
    · rw [hclean]
      refine ⟨fun hc => ⟨u, rfl, hany.mp hc⟩, fun ⟨v, hv, hparam⟩ => ?_⟩
      have hv' := cleanUrl_url v
      rw [hv, hclean] at hv'
      rw [(Prod.mk.inj hv').2]
      exact List.any_eq_true.mpr hparam
    · have hkept : u.kept = u.params :=
        List.filter_eq_self.mpr fun param hp => by simpa using hnone u rfl param hp
      rw [hclean, hkept]
      rfl
    · rw [hclean]
      by_cases hk : u.kept = []
      · simp only [hk, joinQuery, List.append_nil]
        rw [cleanUrl_base]
      · exact (cleanUrl_withKept hk).mpr (h u rfl)
  · have hplain := cleanUrl_plain fun u hu => hurl ⟨u, hu⟩
    refine ⟨fun u hu => absurd ⟨u, hu⟩ hurl, ?_, fun _ => by rw [hplain], by rw [hplain, hplain]⟩
    rw [hplain]
    exact ⟨fun h => absurd h Bool.false_ne_true, fun ⟨u, hu, _⟩ => absurd ⟨u, hu⟩ hurl⟩

theorem lastKept_of_cleansUrl {url : CString} (h : CleansUrl url) : LastKept url := by
  rintro u rfl hlast
  have hclean := h.kept u rfl
  by_cases hseen : u.params.getLast? = some []
  · have heq := hclean
    rw [cleanUrl_url] at heq
    exact joinQuery_seen_iff.mp (List.append_cancel_left (List.append_cancel_right heq)) hseen
  · have hk : u.kept ≠ [] := fun hk => by simp [hk] at hlast
    have htwice := h.twice
    rw [hclean] at htwice
    exact (cleanUrl_withKept hk).mp htwice hlast

/-- Tracking parameters are removed, and nothing else, exactly where no empty parameter is the last
one that is to stay. -/
theorem cleansUrl_iff (url : CString) : CleansUrl url ↔ LastKept url :=
  ⟨lastKept_of_cleansUrl, cleansUrl_of_lastKept⟩

/-- The `&` at the end is lost, and nothing is said to be changed. -/
theorem cleanUrl_trailing :
    (cleanUrl "http://x?a&".toList).2 = false ∧ ¬CleansUrl "http://x?a&".toList := by
  refine ⟨by decide +kernel, fun h => ?_⟩
  let u : UrlParts := ⟨"http://x".toList, ["a".toList, []], [], by decide, by decide, by decide,
    by simp, by simp, .inl rfl⟩
  have hclean := h.kept u rfl
  exact absurd hclean (by decide +kernel)

end SklaffKom
