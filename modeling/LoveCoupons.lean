import LoveCoupons.CouponFeed
import LoveCoupons.LastIssued
import LoveCoupons.PairAccess
import LoveCoupons.OneCoupon
import LoveCoupons.SignUp
import LoveCoupons.RootScreen
import LoveCoupons.Profiles
import LoveCoupons.Lib.ViewModel
import LoveCoupons.Lib.LoadingFlag
import LoveCoupons.ViewModels
import LoveCoupons.ScreenLock
import LoveCoupons.CouponReaders
import LoveCoupons.SwipeToDelete
import LoveCoupons.PairMail
import LoveCoupons.PickedPhoto
import LoveCoupons.SettingsForm
import LoveCoupons.CouponImages
import LoveCoupons.StoredPhotos
import LoveCoupons.Observers
import LoveCoupons.Lib.CostCache
import LoveCoupons.MediaLoading
import LoveCoupons.RowOrder
import LoveCoupons.ImageCacheLimit
import LoveCoupons.Lib.HtmlReader
import LoveCoupons.Lib.PlainText
import LoveCoupons.MailMarkup
import LoveCoupons.Lib.Contents
import LoveCoupons.Lib.Overlay
import LoveCoupons.Lib.TreeContents
import LoveCoupons.ImmutableTree
import LoveCoupons.CompoundWrite
import LoveCoupons.WriteTree
import LoveCoupons.EventCache
import LoveCoupons.ViewProcessor
import LoveCoupons.ViewChanges
import LoveCoupons.Lib.Stale
import LoveCoupons.ViewInvariant
import LoveCoupons.SyncRouting
import LoveCoupons.SyncInvariant
import LoveCoupons.SyncViews
import LoveCoupons.Repo
import LoveCoupons.RepoRuns
import LoveCoupons.Lib.Topmost
import LoveCoupons.SyncListens
import LoveCoupons.Listening
import LoveCoupons.ManagerRuns
