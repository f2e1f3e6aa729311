import MoneyWay.Sessions.Payment
import MoneyWay.Sessions.Chargeback
import MoneyWay.Sessions.Deposit
import MoneyWay.Sessions.Worker
import MoneyWay.Lifecycle
import MoneyWay.Chargebacks
import MoneyWay.Retries
import MoneyWay.Hold
import MoneyWay.PromoReturns
import MoneyWay.Redelivery
import MoneyWay.Bans
import MoneyWay.Routes
import MoneyWay.Evidence
import MoneyWay.Failures
import MoneyWay.Blacklisting
import MoneyWay.Continuous
import MoneyWay.Drain
import MoneyWay.Deadlock
import MoneyWay.DrainEnds
import MoneyWay.DeviceReuse
import MoneyWay.DepositLimits
import MoneyWay.Audit
import MoneyWay.RateLimit
import MoneyWay.Unban
import MoneyWay.Auth.Endings
import MoneyWay.Auth.Profile
import MoneyWay.BingX.Wire
import MoneyWay.WebhookSecret
import MoneyWay.Solvency
import MoneyWay.Dossier
import MoneyWay.Recovery
import MoneyWay.Auth.Access
import MoneyWay.Throttle
import MoneyWay.HoldPeriod
import MoneyWay.FirstPayment
import MoneyWay.RetrySpacing
import MoneyWay.InFlight
import MoneyWay.Completion
