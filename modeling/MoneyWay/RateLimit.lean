import MoneyWay.Library.LeastRecent
import MoneyWay.Library.SlidingWindow

/-!
# The rate limiter

`_check` keeps for each key a queue of the times it let through, in a dictionary
of at most `_MAX_TRACKED_KEYS` keys that drops the key checked least recently.
Read over the calls made so far it is a limit on a sliding window of each key's
own calls, as long as the key is not dropped between two of them
(`check_exact`).
-/

set_option autoImplicit false

namespace MoneyWay.RateLimit

open LeastRecent SlidingWindow

/-- `_MAX_TRACKED_KEYS` -/
def maxTrackedKeys : ℕ := 50000

/-- `_HITS`: the queue of each key, its oldest time first. -/
abbrev Hits (τ : Type*) := Keyed.Table (Prod.fst : String × List τ → String)

/-! ## One call -/

section

variable {τ : Type*} [LinearOrder τ] [Sub τ]

/-- The queue of the key, which is now the key checked last. -/
def fetch (key : String) (hits : Hits τ) : List τ × Hits τ :=
  match hits.find? key with
  | none =>
    let grown := hits.put (key, [])
    ([], if grown.keys.length > maxTrackedKeys then grown.popFirst else grown)
  | some item => (item.2, hits.moveToEnd key)

/-- A queue is changed in place: the dictionary shows the change if it still has the key. -/
def mutate (key : String) (queue : List τ) (hits : Hits τ) : Hits τ :=
  match hits.find? key with
  | none => hits
  | some _ => hits.put (key, queue)

def check (key : String) (limit : ℕ) (windowSeconds now : τ) (hits : Hits τ) : Bool × Hits τ :=
  let (queue, hits) := fetch key hits
  let threshold := now - windowSeconds
  let queue := queue.dropWhile (· ≤ threshold)
  if queue.length ≥ limit then (false, mutate key queue hits)
  else (true, mutate key (queue ++ [now]) hits)

/-- The queue the dictionary holds for a key, empty for a key it does not hold. -/
def queueOf (key : String) (hits : Hits τ) : List τ :=
  match hits.find? key with
  | none => []
  | some item => item.2

omit [LinearOrder τ] [Sub τ] in
theorem fetch_fst (key : String) (hits : Hits τ) : (fetch key hits).1 = queueOf key hits := by
  rw [fetch, queueOf]
  cases hits.find? key <;> rfl

omit [LinearOrder τ] [Sub τ] in
theorem keys_mutate (key : String) (queue : List τ) (hits : Hits τ) :
    (mutate key queue hits).keys = hits.keys := by
  rw [mutate]
  cases h : hits.find? key with
  | none => rfl
  | some item => exact Keyed.Table.keys_put_old (r := (key, queue)) h

omit [LinearOrder τ] [Sub τ] in
theorem find?_mutate (key k : String) (queue : List τ) (hits : Hits τ) (hk : key ≠ k) :
    (mutate key queue hits).find? k = hits.find? k := by
  rw [mutate]
  cases hits.find? key with
  | none => rfl
  | some item => exact Keyed.Table.find?_put_ne (r := (key, queue)) hits hk

omit [LinearOrder τ] [Sub τ] in
theorem queueOf_mutate {key : String} {hits : Hits τ} (h : key ∈ hits.keys) (queue : List τ) :
    queueOf key (mutate key queue hits) = queue := by
  obtain ⟨item, hitem⟩ := Option.isSome_iff_exists.mp (Keyed.Table.mem_keys.mp h)
  have hput : (hits.put (key, queue)).find? key = some (key, queue) :=
    Keyed.Table.find?_put_self hits (key, queue)
  rw [mutate, hitem]
  show queueOf key (hits.put (key, queue)) = queue
  rw [queueOf, hput]

omit [LinearOrder τ] [Sub τ] in
/-- The dictionary keeps the keys checked last. -/
theorem keys_fetch (key : String) {hits : Hits τ} (hlen : hits.keys.length ≤ maxTrackedKeys) :
    (fetch key hits).2.keys.reverse = touch maxTrackedKeys key hits.keys.reverse := by
  rw [fetch]
  cases h : hits.find? key with
  | none => exact Keyed.Table.reverse_keys_put_new (r := (key, [])) h hlen
  | some item => exact Keyed.Table.reverse_keys_moveToEnd h hlen

omit [LinearOrder τ] [Sub τ] in
theorem find?_fetch {key k : String} {hits : Hits τ} (hk : key ≠ k)
    (h : k ∈ (fetch key hits).2.keys) : (fetch key hits).2.find? k = hits.find? k := by
  rw [fetch] at h ⊢
  cases hfind : hits.find? key with
  | none =>
    rw [hfind] at h
    have hput : (hits.put (key, [])).find? k = hits.find? k :=
      Keyed.Table.find?_put_ne (r := (key, [])) hits hk
    show (ite _ _ _ : Hits τ).find? k = _
    have h : k ∈ (ite _ _ _ : Hits τ).keys := h
    by_cases hfull : (hits.put (key, [])).keys.length > maxTrackedKeys
    · rw [if_pos hfull] at h ⊢
      rw [Keyed.Table.find?_popFirst h, hput]
    · rw [if_neg hfull, hput]
  | some item => exact Keyed.Table.find?_moveToEnd hits key k

theorem check_eq (key : String) (limit : ℕ) (windowSeconds now : τ) (hits : Hits τ) :
    check key limit windowSeconds now hits =
      let queue := (queueOf key hits).dropWhile (· ≤ now - windowSeconds)
      if queue.length < limit then (true, mutate key (queue ++ [now]) (fetch key hits).2)
      else (false, mutate key queue (fetch key hits).2) := by
  rw [← fetch_fst]
  show (if ((fetch key hits).1.dropWhile (· ≤ now - windowSeconds)).length ≥ limit then
      (false, mutate key ((fetch key hits).1.dropWhile (· ≤ now - windowSeconds))
        (fetch key hits).2)
    else (true, mutate key ((fetch key hits).1.dropWhile (· ≤ now - windowSeconds) ++ [now])
        (fetch key hits).2)) = _
  by_cases hroom : ((fetch key hits).1.dropWhile (· ≤ now - windowSeconds)).length < limit
  · rw [if_pos hroom, if_neg (by omega)]
  · rw [if_neg hroom, if_pos (by omega)]

theorem check_fst {key : String} {limit : ℕ} {windowSeconds now : τ} {hits : Hits τ} :
    (check key limit windowSeconds now hits).1 = true ↔
      ((queueOf key hits).dropWhile (· ≤ now - windowSeconds)).length < limit := by
  rw [check_eq]
  dsimp only
  split
  · next hroom => exact iff_of_true rfl hroom
  · next hroom => exact iff_of_false Bool.false_ne_true hroom

theorem check_snd (key : String) (limit : ℕ) (windowSeconds now : τ) (hits : Hits τ) :
    (check key limit windowSeconds now hits).2 = mutate key
      ((queueOf key hits).dropWhile (· ≤ now - windowSeconds) ++
        if (check key limit windowSeconds now hits).1 then [now] else []) (fetch key hits).2 := by
  rw [check_eq]
  dsimp only
  split
  · rfl
  · rw [if_neg Bool.false_ne_true, List.append_nil]

theorem keys_check (key : String) (limit : ℕ) (windowSeconds now : τ) {hits : Hits τ}
    (hlen : hits.keys.length ≤ maxTrackedKeys) :
    (check key limit windowSeconds now hits).2.keys.reverse =
      touch maxTrackedKeys key hits.keys.reverse := by
  rw [check_snd, keys_mutate, keys_fetch key hlen]

/-- A call leaves the queue of another key alone, unless it drops the key. -/
theorem queueOf_check_other {key k : String} (hk : key ≠ k) {limit : ℕ} {windowSeconds now : τ}
    {hits : Hits τ} (h : k ∈ (check key limit windowSeconds now hits).2.keys) :
    k ∈ hits.keys ∧ queueOf k (check key limit windowSeconds now hits).2 = queueOf k hits := by
  have hfind : (check key limit windowSeconds now hits).2.find? k = hits.find? k := by
    rw [check_snd, keys_mutate] at h
    rw [check_snd, find?_mutate _ _ _ _ hk, find?_fetch hk h]
  constructor
  · rw [Keyed.Table.mem_keys] at h ⊢
    rw [← hfind]
    exact h
  · rw [queueOf, hfind, queueOf]

end

/-! ## A history of calls -/

/-- What a caller of `_check` passes for its key. -/
structure Rule (τ : Type*) where
  limit : ℕ
  windowSeconds : τ

/-- A call of `_check` and what the clock says. -/
structure Call (τ : Type*) where
  key : String
  now : τ

section

variable {τ : Type*}

/-- The clock does not go back; the last call comes first. -/
def Clocked [LE τ] (calls : List (Call τ)) : Prop :=
  calls.Pairwise fun c earlier => earlier.now ≤ c.now

/-- Between two checks of `key` in a row fewer other keys are checked than the dictionary holds. -/
def Remembered (key : String) (calls : List (Call τ)) : Prop :=
  ∀ later now since now' earlier,
    calls = later ++ ⟨key, now⟩ :: since ++ ⟨key, now'⟩ :: earlier → key ∉ since.map Call.key →
      (since.map Call.key).toFinset.card < maxTrackedKeys

/-- The times at which the key was checked. -/
def arrivals (key : String) (calls : List (Call τ)) : List τ :=
  (calls.filter fun c => c.key = key).map Call.now

theorem Remembered.suffix {key : String} {later calls : List (Call τ)}
    (h : Remembered key (later ++ calls)) : Remembered key calls := by
  intro before now since now' earlier heq
  apply h (later ++ before) now since now' earlier
  rw [heq]
  simp only [List.append_assoc]

theorem Remembered.of_cons {key : String} {c : Call τ} {calls : List (Call τ)}
    (h : Remembered key (c :: calls)) : Remembered key calls := by
  have h : Remembered key ([c] ++ calls) := h
  exact h.suffix

/-- With few calls no key is dropped. -/
theorem Remembered.of_length {calls : List (Call τ)} (h : calls.length ≤ maxTrackedKeys)
    (key : String) : Remembered key calls := by
  rintro later now since now' earlier rfl -
  have hcard : (since.map Call.key).toFinset.card ≤ since.length := by
    rw [← since.length_map Call.key]
    exact List.toFinset_card_le _
  simp only [List.length_append, List.length_cons] at h
  omega

theorem Clocked.arrivals [Preorder τ] {calls : List (Call τ)} (h : Clocked calls) (key : String) :
    (arrivals key calls).Pairwise (· ≥ ·) := by
  rw [RateLimit.arrivals, List.pairwise_map]
  exact h.filter _

variable [LinearOrder τ] [Sub τ]

/-- `_HITS` after the calls. -/
def after (rule : String → Rule τ) : List (Call τ) → Hits τ
  | [] => Keyed.Table.empty Prod.fst
  | c :: earlier =>
    (check c.key (rule c.key).limit (rule c.key).windowSeconds c.now (after rule earlier)).2

def answer (rule : String → Rule τ) (earlier : List (Call τ)) (c : Call τ) : Bool :=
  (check c.key (rule c.key).limit (rule c.key).windowSeconds c.now (after rule earlier)).1

/-- The times of the calls on the key that were let through. -/
def accepted (rule : String → Rule τ) (key : String) : List (Call τ) → List τ
  | [] => []
  | c :: earlier =>
    if c.key = key ∧ answer rule earlier c = true then c.now :: accepted rule key earlier
    else accepted rule key earlier

variable (rule : String → Rule τ)

theorem accepted_sublist (key : String) (calls : List (Call τ)) :
    (accepted rule key calls).Sublist (arrivals key calls) := by
  induction calls with
  | nil => exact List.Sublist.refl _
  | cons c earlier ih =>
    by_cases hkey : c.key = key
    · have harr : arrivals key (c :: earlier) = c.now :: arrivals key earlier := by
        simp [arrivals, hkey]
      rw [accepted, harr]
      split
      · exact ih.cons_cons c.now
      · exact ih.cons c.now
    · have harr : arrivals key (c :: earlier) = arrivals key earlier := by
        simp [arrivals, hkey]
      rw [accepted, if_neg fun h => hkey h.1, harr]
      exact ih

/-- The dictionary holds the keys checked last. -/
theorem keys_after (calls : List (Call τ)) :
    (after rule calls).keys.reverse = kept maxTrackedKeys (calls.map Call.key) := by
  induction calls with
  | nil => rfl
  | cons c earlier ih =>
    have hlen : (after rule earlier).keys.length ≤ maxTrackedKeys := by
      rw [← List.length_reverse, ih]
      exact length_kept_le _ _
    rw [after, keys_check _ _ _ _ hlen, ih]
    rfl

theorem length_keys_after (calls : List (Call τ)) :
    (after rule calls).keys.length ≤ maxTrackedKeys := by
  rw [← List.length_reverse, keys_after]
  exact length_kept_le _ _

/-- A key checked before is still held when it is checked again. -/
theorem mem_keys_of_remembered {key : String} {now : τ} {earlier : List (Call τ)}
    (hrem : Remembered key (⟨key, now⟩ :: earlier)) (hkey : key ∈ earlier.map Call.key) :
    key ∈ (after rule earlier).keys := by
  obtain ⟨_, _, hmap, hsince⟩ := List.eq_append_cons_of_mem hkey
  obtain ⟨since, rest, rfl, rfl, hrest⟩ := List.map_eq_append_iff.mp hmap
  obtain ⟨c, older, rfl, rfl, -⟩ := List.map_eq_cons_iff.mp hrest
  have hfew : (since.map Call.key).toFinset.card < maxTrackedKeys :=
    hrem [] now since c.now older rfl hsince
  rw [← List.mem_reverse, keys_after, List.map_append, List.map_cons]
  exact (mem_kept_iff _ hsince).mpr hfew

theorem accepted_eq_nil {key : String} {calls : List (Call τ)}
    (h : key ∉ calls.map Call.key) : accepted rule key calls = [] := by
  have hnone : arrivals key calls = [] := by
    rw [arrivals, List.map_eq_nil_iff, List.filter_eq_nil_iff]
    intro c hc he
    exact h (List.mem_map.mpr ⟨c, hc, by simpa using he⟩)
  exact List.eq_nil_of_sublist_nil (hnone ▸ accepted_sublist rule key calls)

/-- A key about to be checked is held or has never been checked. -/
theorem keeps_of_held {key : String} {now : τ} {earlier : List (Call τ)}
    (hrem : Remembered key (⟨key, now⟩ :: earlier))
    (hheld : key ∈ (after rule earlier).keys → Keeps (rule key).windowSeconds now
      (accepted rule key earlier) (queueOf key (after rule earlier))) :
    Keeps (rule key).windowSeconds now (accepted rule key earlier)
      (queueOf key (after rule earlier)) := by
  by_cases hmem : key ∈ (after rule earlier).keys
  · exact hheld hmem
  · have hnever : key ∉ earlier.map Call.key :=
      fun h => hmem (mem_keys_of_remembered rule hrem h)
    have hqueue : queueOf key (after rule earlier) = [] := by
      rw [Keyed.Table.mem_keys, Option.not_isSome_iff_eq_none] at hmem
      rw [queueOf, hmem]
    rw [accepted_eq_nil rule hnever, hqueue]
    exact Keeps.nil _ _

/-- A call keeps in the queue of its key every time that still counts. -/
theorem keeps_step {key : String} {now : τ} {earlier : List (Call τ)}
    (h : Keeps (rule key).windowSeconds now (accepted rule key earlier)
      (queueOf key (after rule earlier)))
    (hmem : key ∈ (after rule (⟨key, now⟩ :: earlier)).keys) :
    Keeps (rule key).windowSeconds now (accepted rule key (⟨key, now⟩ :: earlier))
      (queueOf key (after rule (⟨key, now⟩ :: earlier))) := by
  have hafter := check_snd key (rule key).limit (rule key).windowSeconds now (after rule earlier)
  rw [after, hafter, keys_mutate] at hmem
  rw [after, hafter, queueOf_mutate hmem, accepted]
  by_cases hok : (check key (rule key).limit (rule key).windowSeconds now
      (after rule earlier)).1 = true
  · have hanswer : answer rule earlier ⟨key, now⟩ = true := hok
    rw [if_pos ⟨rfl, hanswer⟩, if_pos hok]
    exact h.expire.push
  · have hanswer : ¬ answer rule earlier ⟨key, now⟩ = true := hok
    rw [if_neg fun h => hanswer h.2, if_neg hok, List.append_nil]
    exact h.expire

/-- As long as a key is held its queue has every time that still counts. -/
theorem keeps_of_mem (hsub : ∀ w : τ, Monotone fun t => t - w) {key : String}
    {calls : List (Call τ)} (hclock : Clocked calls) (hrem : Remembered key calls)
    (hmem : key ∈ (after rule calls).keys) {now : τ} (hnow : ∀ c ∈ calls, c.now ≤ now) :
    Keeps (rule key).windowSeconds now (accepted rule key calls)
      (queueOf key (after rule calls)) := by
  induction calls generalizing now with
  | nil => cases hmem
  | cons c earlier ih =>
    have hremEarlier : Remembered key earlier := hrem.of_cons
    by_cases hkey : c.key = key
    · obtain ⟨k, t⟩ := c
      have hkey : k = key := hkey
      subst hkey
      have hbefore : Keeps (rule k).windowSeconds t (accepted rule k earlier)
          (queueOf k (after rule earlier)) :=
        keeps_of_held rule hrem fun hheld =>
          ih hclock.of_cons hremEarlier hheld fun c hc => List.rel_of_pairwise_cons hclock hc
      exact (keeps_step rule hbefore hmem).later (hsub _) (hnow _ List.mem_cons_self)
    · obtain ⟨hheld, hqueue⟩ := queueOf_check_other hkey hmem
      rw [after, hqueue, accepted, if_neg fun h => hkey h.1]
      exact ih hclock.of_cons hremEarlier hheld fun c hc => hnow c (List.mem_cons_of_mem _ hc)

/-- A call is let through when its window has room. -/
theorem answer_iff (hsub : ∀ w : τ, Monotone fun t => t - w) {key : String} {now : τ}
    {earlier : List (Call τ)} (hclock : Clocked (⟨key, now⟩ :: earlier))
    (hrem : Remembered key (⟨key, now⟩ :: earlier)) :
    answer rule earlier ⟨key, now⟩ = true ↔
      load (rule key).windowSeconds now (accepted rule key earlier) < (rule key).limit := by
  have hpast : ∀ c ∈ earlier, c.now ≤ now := fun c hc => List.rel_of_pairwise_cons hclock hc
  have hkeeps : Keeps (rule key).windowSeconds now (accepted rule key earlier)
      (queueOf key (after rule earlier)) :=
    keeps_of_held rule hrem fun hheld =>
      keeps_of_mem rule hsub hclock.of_cons hrem.of_cons hheld hpast
  have hsorted : (accepted rule key earlier).Pairwise (· ≥ ·) :=
    (Clocked.arrivals hclock.of_cons key).sublist (accepted_sublist rule key earlier)
  have hnow : ∀ t ∈ accepted rule key earlier, t ≤ now := by
    intro t ht
    obtain ⟨c, hc, rfl⟩ := List.mem_map.mp ((accepted_sublist rule key earlier).subset ht)
    exact hpast c (List.mem_of_mem_filter hc)
  rw [← hkeeps.length_expire hsorted hnow]
  exact check_fst

/-- The calls let through are those a limit on the key's own calls lets through. -/
theorem accepted_eq (hsub : ∀ w : τ, Monotone fun t => t - w) {key : String}
    {calls : List (Call τ)} (hclock : Clocked calls) (hrem : Remembered key calls) :
    accepted rule key calls =
      admitted (rule key).limit (rule key).windowSeconds (arrivals key calls) := by
  induction calls with
  | nil => rfl
  | cons c earlier ih =>
    have ih := ih hclock.of_cons (hrem.of_cons)
    by_cases hkey : c.key = key
    · obtain ⟨k, t⟩ := c
      have hkey : k = key := hkey
      subst hkey
      have harr : arrivals k (⟨k, t⟩ :: earlier) = t :: arrivals k earlier := by simp [arrivals]
      have hroom := answer_iff rule hsub hclock hrem
      rw [accepted, harr, admitted, ← ih]
      by_cases hok : answer rule earlier ⟨k, t⟩ = true
      · rw [if_pos ⟨rfl, hok⟩, if_pos (hroom.mp hok)]
      · rw [if_neg fun h => hok h.2, if_neg fun h => hok (hroom.mpr h)]
    · have harr : arrivals key (c :: earlier) = arrivals key earlier := by simp [arrivals, hkey]
      rw [accepted, if_neg fun h => hkey h.1, harr, ih]

/-- The limiter lets a call through exactly when fewer than the limit of the
calls of its key let through before lie in the window that ends with it; so no
window holds more than the limit, the calls refused and the other keys do not
matter, and the dictionary does not grow beyond its bound. -/
theorem check_exact (hsub : ∀ w : τ, Monotone fun t => t - w) (calls : List (Call τ)) :
    (after rule calls).keys.length ≤ maxTrackedKeys ∧
    (Clocked calls → ∀ key, Remembered key calls →
      (∀ later now earlier, calls = later ++ ⟨key, now⟩ :: earlier →
        (answer rule earlier ⟨key, now⟩ = true ↔
          (accepted rule key earlier).countP
              (fun t => now - (rule key).windowSeconds < t ∧ t ≤ now) < (rule key).limit)) ∧
      (∀ now, (accepted rule key calls).countP
          (fun t => now - (rule key).windowSeconds < t ∧ t ≤ now) ≤ (rule key).limit) ∧
      accepted rule key calls =
        admitted (rule key).limit (rule key).windowSeconds (arrivals key calls)) := by
  refine ⟨length_keys_after rule calls, ?_⟩
  intro hclock key hrem
  refine ⟨?_, ?_, accepted_eq rule hsub hclock hrem⟩
  · rintro later now earlier rfl
    exact answer_iff rule hsub (List.pairwise_append.mp hclock).2.1 hrem.suffix
  · intro now
    rw [accepted_eq rule hsub hclock hrem]
    exact load_admitted_le (hsub _) _ (hclock.arrivals key) now

/-- The bound on other keys is tight: with as many of them a key is forgotten,
and its next call is let through whatever was let through before. -/
theorem answer_of_forgotten {key : String} {now now' : τ} {since earlier : List (Call τ)}
    (hsince : key ∉ since.map Call.key)
    (hmany : maxTrackedKeys ≤ (since.map Call.key).toFinset.card) (hlimit : 1 ≤ (rule key).limit) :
    answer rule (since ++ ⟨key, now'⟩ :: earlier) ⟨key, now⟩ = true := by
  have hgone : key ∉ (after rule (since ++ ⟨key, now'⟩ :: earlier)).keys := by
    rw [← List.mem_reverse, keys_after, List.map_append, List.map_cons]
    intro h
    have hfew := (mem_kept_iff _ hsince).mp h
    omega
  have hqueue : queueOf key (after rule (since ++ ⟨key, now'⟩ :: earlier)) = [] := by
    rw [Keyed.Table.mem_keys, Option.not_isSome_iff_eq_none] at hgone
    rw [queueOf, hgone]
  apply check_fst.mpr
  rw [hqueue]
  exact hlimit

end

/-! ### Two logins a minute -/

def loginRule (_ : String) : Rule ℤ := ⟨2, 60⟩

def logins : List (Call ℤ) :=
  [⟨"admin_login:a", 61⟩, ⟨"admin_login:a", 20⟩, ⟨"admin_login:b", 15⟩, ⟨"admin_login:a", 10⟩,
    ⟨"admin_login:a", 0⟩]

theorem check_exact_logins :
    accepted loginRule "admin_login:a" logins = [61, 10, 0] ∧
      ∀ now, (accepted loginRule "admin_login:a" logins).countP
        (fun t => now - 60 < t ∧ t ≤ now) ≤ 2 := by
  constructor
  · decide +kernel
  · have hsub : ∀ w : ℤ, Monotone fun t => t - w := fun w _ _ h => Int.sub_le_sub_right h w
    have hclock : Clocked logins := by
      show logins.Pairwise _
      decide
    exact ((check_exact loginRule hsub logins).2 hclock "admin_login:a"
      (Remembered.of_length (by decide) _)).2.1

end MoneyWay.RateLimit
